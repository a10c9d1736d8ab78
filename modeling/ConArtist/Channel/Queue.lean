import Mathlib.Data.List.Perm.Basic
import ConArtist.Channel.Model
import ConArtist.Foundation.Linked

/-!
# The channel is a bounded queue

The nodes of the array are in two linked lists, the queue from `m_head` to `m_tail` and
the free list, which share no node and leave none out. Every section keeps this, and
moves one node from the one list to the other, so that what is popped is what was
pushed, in the same order. A push that does not wait always finds a free node.
-/

namespace ConArtist

namespace Channel

open Machine Linked

/-- The `m_next` of a node. -/
def nextOf (nodes : List Node) (i : ℕ) : Option ℕ := nodes[i]?.bind Node.next

/-- The `m_data` of a node. -/
def dataOf (nodes : List Node) (i : ℕ) : Option ℕ := nodes[i]?.map Node.data

theorem nextOf_set {nodes : List Node} {i : ℕ} (hi : i < nodes.length) (node : Node) (j : ℕ) :
    nextOf (nodes.set i node) j = if i = j then node.next else nextOf nodes j := by
  rw [nextOf, List.getElem?_set]
  by_cases hij : i = j
  · rw [if_pos hij, if_pos hij, if_pos hi]
    rfl
  · rw [if_neg hij, if_neg hij, nextOf]

theorem dataOf_set {nodes : List Node} {i : ℕ} (hi : i < nodes.length) (node : Node) (j : ℕ) :
    dataOf (nodes.set i node) j = if i = j then some node.data else dataOf nodes j := by
  rw [dataOf, List.getElem?_set]
  by_cases hij : i = j
  · rw [if_pos hij, if_pos hij, if_pos hi]
    rfl
  · rw [if_neg hij, if_neg hij, dataOf]

/-- The nodes are in two linked lists, the queue and the free list. -/
structure Lists (ch : Channel) (queue free : List ℕ) : Prop where
  fromHead : Path (nextOf ch.nodes) ch.head queue
  last : queue.getLast? = ch.tail
  size : queue.length = ch.size
  fromFreeList : Path (nextOf ch.nodes) ch.freeList free
  length : ch.nodes.length = ch.capacity
  nodes : (queue ++ free).Perm (List.range ch.capacity)

section Lists

variable {ch ch' : Channel} {queue free : List ℕ} {n : ℕ}

theorem Lists.lt_length (h : ch.Lists queue free) {i : ℕ} (hi : i ∈ queue ++ free) :
    i < ch.nodes.length := by
  rw [h.length]
  exact List.mem_range.mp (h.nodes.subset hi)

theorem Lists.nodup (h : ch.Lists queue free) : (queue ++ free).Nodup :=
  h.nodes.nodup_iff.mpr List.nodup_range

theorem Lists.length_add (h : ch.Lists queue free) : queue.length + free.length = ch.capacity := by
  rw [← List.length_append, h.nodes.length_eq, List.length_range]

/-- What a push makes of the two lists. -/
structure Puts (ch ch' : Channel) (queue free : List ℕ) (n data : ℕ) : Prop where
  lists : ch'.Lists (queue ++ [n]) free
  capacity : ch'.capacity = ch.capacity
  kept : ∀ i ∈ queue, dataOf ch'.nodes i = dataOf ch.nodes i
  added : dataOf ch'.nodes n = some data

theorem Lists.notMem (h : ch.Lists queue (n :: free)) : n ∉ queue ∧ n ∉ free := by
  have hnodup := h.nodup
  rw [List.nodup_append, List.nodup_cons] at hnodup
  exact ⟨fun hq => hnodup.2.2 n hq n List.mem_cons_self rfl, hnodup.2.1.1⟩

theorem Lists.notMem_last {l : List ℕ} {t : ℕ} (h : ch.Lists (l ++ [t]) free) :
    t ∉ l ∧ t ∉ free := by
  have hnodup := h.nodup
  rw [List.append_assoc, List.singleton_append, List.perm_middle.nodup_iff, List.nodup_cons,
    List.mem_append, not_or] at hnodup
  exact hnodup.1

theorem Lists.notMem_first (h : ch.Lists (n :: queue) free) : n ∉ queue ∧ n ∉ free := by
  have hnodup := h.nodup
  rw [List.cons_append, List.nodup_cons, List.mem_append, not_or] at hnodup
  exact hnodup.1

theorem Lists.nextOf_free (h : ch.Lists queue (n :: free)) {node : Node}
    (hnode : ch.nodes[n]? = some node) :
    Path (nextOf ch.nodes) node.next free := by
  have hrest := h.fromFreeList.2
  rwa [nextOf, hnode, Option.bind_some] at hrest

theorem Lists.put_nil (h : ch.Lists [] (n :: free)) (data : ℕ) :
    ∃ ch', ch.put data = some ch' ∧ Puts ch ch' [] free n data := by
  have hn : n < ch.nodes.length := h.lt_length (by simp)
  have hnode := List.getElem?_eq_getElem hn
  have htail : ch.tail = none := h.last.symm
  have hnext := nextOf_set hn { data := data, next := none }
  refine ⟨{ ch with
    freeList := ch.nodes[n].next
    nodes := ch.nodes.set n { data := data, next := none }
    head := some n
    tail := some n
    size := ch.size + 1 }, ?_, ⟨⟨rfl, ?_⟩, rfl, ?_, ?_, ?_, h.nodes⟩, rfl, by simp, ?_⟩
  · simp only [Channel.put, h.fromFreeList.1, hnode, htail, Option.bind_eq_bind, Option.bind_some]
  · rw [hnext, if_pos rfl]
    rfl
  · rw [← h.size]
    rfl
  · refine (h.nextOf_free hnode).congr fun j hj => ?_
    rw [hnext, if_neg (ne_of_mem_of_not_mem hj h.notMem.2).symm]
  · exact List.length_set.trans h.length
  · rw [dataOf_set hn, if_pos rfl]

/-- The push behind a last node sets its `m_next`. -/
theorem Lists.put_concat {l : List ℕ} {t : ℕ} (h : ch.Lists (l ++ [t]) (n :: free)) (data : ℕ) :
    ∃ ch', ch.put data = some ch' ∧ Puts ch ch' (l ++ [t]) free n data := by
  have hn : n < ch.nodes.length := h.lt_length (by simp)
  have ht : t < ch.nodes.length := h.lt_length (by simp)
  have hnode := List.getElem?_eq_getElem hn
  have htail : ch.tail = some t := by
    rw [← h.last, List.getLast?_concat]
  obtain ⟨hnqueue, hnfree⟩ := h.notMem
  obtain ⟨htl, htfree⟩ := h.notMem_last
  rw [List.mem_cons, not_or] at htfree
  have htn : n ≠ t := Ne.symm htfree.1
  have ht' : t < (ch.nodes.set n { data := data, next := none }).length := by
    rwa [List.length_set]
  have hlast : (ch.nodes.set n { data := data, next := none })[t]? = some ch.nodes[t] := by
    rw [List.getElem?_set_ne htn, List.getElem?_eq_getElem ht]
  have hnext := fun j => (nextOf_set ht' { ch.nodes[t] with next := some n } j).trans
    (congrArg (ite _ _) (nextOf_set hn { data := data, next := none } j))
  refine ⟨{ ch with
    freeList := ch.nodes[n].next
    nodes := (ch.nodes.set n { data := data, next := none }).set t
      { ch.nodes[t] with next := some n }
    tail := some n
    size := ch.size + 1 }, ?_, ⟨?_, ?_, ?_, ?_, ?_, ?_⟩, rfl, fun j hj => ?_, ?_⟩
  · simp only [Channel.put, h.fromFreeList.1, hnode, htail, hlast, Option.bind_eq_bind,
      Option.bind_some]
  · refine h.fromHead.concat (fun j hj => ?_) ?_ ?_
    · rw [hnext, if_neg (ne_of_mem_of_not_mem hj htl).symm,
        if_neg fun heq => hnqueue (by rw [heq]; simp [hj])]
    · rw [hnext, if_pos rfl]
    · rw [hnext, if_neg htn.symm, if_pos rfl]
  · exact List.getLast?_concat
  · rw [List.length_append, List.length_singleton, h.size]
  · refine (h.nextOf_free hnode).congr fun j hj => ?_
    rw [hnext, if_neg (ne_of_mem_of_not_mem hj htfree.2).symm,
      if_neg (ne_of_mem_of_not_mem hj hnfree).symm]
  · rw [List.length_set, List.length_set]
    exact h.length
  · rw [List.append_assoc]
    exact h.nodes
  · rw [dataOf_set ht', dataOf_set hn, if_neg (ne_of_mem_of_not_mem hj hnqueue).symm]
    split
    case isTrue heq => rw [← heq, dataOf, List.getElem?_eq_getElem ht, Option.map_some]
    case isFalse => rfl
  · rw [dataOf_set ht', if_neg htn.symm, dataOf_set hn, if_pos rfl]

/-- `channel_push` takes the first free node and appends it to the queue. -/
theorem Lists.put (h : ch.Lists queue free) (hroom : ¬ ch.full) (data : ℕ) :
    ∃ n free' ch', free = n :: free' ∧ ch.put data = some ch' ∧
      Puts ch ch' queue free' n data := by
  cases free with
  | nil =>
      have hadd := h.length_add
      rw [List.length_nil, h.size, Nat.add_zero] at hadd
      exact absurd (Nat.le_of_eq hadd.symm) hroom
  | cons n free' =>
      rcases queue.eq_nil_or_concat with rfl | ⟨l, t, rfl⟩
      · obtain ⟨ch', hput, hputs⟩ := h.put_nil data
        exact ⟨n, free', ch', rfl, hput, hputs⟩
      · rw [List.concat_eq_append] at h ⊢
        obtain ⟨ch', hput, hputs⟩ := h.put_concat data
        exact ⟨n, free', ch', rfl, hput, hputs⟩

/-- What a pop makes of the two lists. -/
structure Takes (ch ch' : Channel) (queue free : List ℕ) (n data : ℕ) : Prop where
  lists : ch'.Lists queue (n :: free)
  capacity : ch'.capacity = ch.capacity
  kept : ∀ i ∈ queue, dataOf ch'.nodes i = dataOf ch.nodes i
  data : dataOf ch.nodes n = some data

/-- A pop takes the first node of the queue and puts it before the free ones. -/
theorem Lists.take (h : ch.Lists queue free) (hdata : ¬ ch.empty) :
    ∃ n queue' data ch', queue = n :: queue' ∧ ch.take = some (data, ch') ∧
      Takes ch ch' queue' free n data := by
  cases queue with
  | nil => exact absurd h.size.symm hdata
  | cons n queue' =>
      have hn : n < ch.nodes.length := h.lt_length (by simp)
      have hnode := List.getElem?_eq_getElem hn
      have hrest := h.fromHead.2
      rw [nextOf, hnode, Option.bind_some] at hrest
      obtain ⟨hnqueue, hnfree⟩ := h.notMem_first
      have hnext := nextOf_set hn { ch.nodes[n] with next := ch.freeList }
      refine ⟨n, queue', ch.nodes[n].data, { ch with
        head := ch.nodes[n].next
        tail := if ch.nodes[n].next = none then none else ch.tail
        size := ch.size - 1
        nodes := ch.nodes.set n { ch.nodes[n] with next := ch.freeList }
        freeList := some n }, rfl, ?_, ⟨?_, ?_, ?_, ⟨rfl, ?_⟩, ?_, ?_⟩, rfl, fun j hj => ?_, ?_⟩
      · simp only [Channel.take, h.fromHead.1, hnode, Option.bind_eq_bind, Option.bind_some]
      · refine hrest.congr fun j hj => ?_
        rw [hnext, if_neg (ne_of_mem_of_not_mem hj hnqueue).symm]
      · have hlast := h.last
        cases queue' with
        | nil => exact (if_pos hrest).symm
        | cons j queue' =>
            rw [List.getLast?_cons_cons] at hlast
            rw [hlast]
            exact (if_neg (by rw [hrest.1]; exact Option.some_ne_none j)).symm
      · rw [← h.size, List.length_cons, Nat.add_sub_cancel]
      · rw [hnext, if_pos rfl]
        refine h.fromFreeList.congr fun j hj => ?_
        rw [hnext, if_neg (ne_of_mem_of_not_mem hj hnfree).symm]
      · exact List.length_set.trans h.length
      · exact List.perm_middle.trans h.nodes
      · rw [dataOf_set hn, if_neg (ne_of_mem_of_not_mem hj hnqueue).symm]
      · rw [dataOf, hnode, Option.map_some]

end Lists

section Init

theorem nextOf_setNext {nodes : List Node} {i : ℕ} (hi : i < nodes.length) (next : Option ℕ)
    (j : ℕ) : nextOf (setNext nodes i next) j = if i = j then next else nextOf nodes j := by
  rw [nextOf, setNext]
  by_cases hij : i = j
  · subst hij
    rw [if_pos rfl, List.getElem?_modify_eq, List.getElem?_eq_getElem hi]
    rfl
  · rw [if_neg hij, List.getElem?_modify_ne _ _ hij, nextOf]

/-- The loop of `channel_init` links the first nodes, each to the next one. -/
theorem linkNodes_spec (nodes : List Node) (k : ℕ) (hk : k ≤ nodes.length) :
    let linked := (List.range k).foldl (fun nodes i => setNext nodes i (some (i + 1))) nodes
    linked.length = nodes.length ∧
      ∀ j, nextOf linked j = if j < k then some (j + 1) else nextOf nodes j := by
  induction k with
  | zero => exact ⟨rfl, fun j => (if_neg (Nat.not_lt_zero j)).symm⟩
  | succ k ih =>
      obtain ⟨hlength, hnext⟩ := ih (Nat.le_of_succ_le hk)
      simp only [List.range_succ, List.foldl_append, List.foldl_cons, List.foldl_nil]
      refine ⟨by rw [setNext, List.length_modify, hlength], fun j => ?_⟩
      rw [nextOf_setNext (by rw [hlength]; exact hk), hnext]
      grind

/-- `channel_init` puts all nodes into the free list. -/
theorem exists_init {capacity : ℕ} (hcap : 0 < capacity) :
    ∃ ch, init capacity = some ch ∧ ch.Lists [] (List.range capacity) := by
  obtain ⟨n, rfl⟩ : ∃ n, capacity = n + 1 := ⟨capacity - 1, by omega⟩
  obtain ⟨hlength, hnext⟩ := linkNodes_spec (List.replicate (n + 1) ⟨0, none⟩) n
    (by rw [List.length_replicate]; exact n.le_succ)
  rw [List.length_replicate] at hlength
  have hlast := nextOf_setNext (Nat.lt_of_lt_of_eq n.lt_succ_self hlength.symm) none
  have hpath := path_range' (k := 0) (n := n) (fun i _ hi => (hlast i).trans (by rw [hnext]; grind))
    ((hlast _).trans (if_pos (Nat.zero_add n).symm))
  rw [← List.range_eq_range'] at hpath
  refine ⟨_, if_neg n.succ_ne_zero, rfl, rfl, rfl, hpath, ?_, .rfl⟩
  exact (List.length_modify _ _ _).trans hlength

end Init

/-- The channel holds the items, the next one to leave first. -/
def Holds (ch : Channel) (items : List ℕ) : Prop :=
  ∃ queue free, ch.Lists queue free ∧ queue.map (dataOf ch.nodes) = items.map some

section Holds

variable {ch : Channel} {items : List ℕ}

theorem Holds.size (h : ch.Holds items) : items.length = ch.size := by
  obtain ⟨queue, free, hlists, hdata⟩ := h
  have hlength := congrArg List.length hdata
  rw [List.length_map, List.length_map] at hlength
  rw [← hlength, hlists.size]

theorem Holds.size_le (h : ch.Holds items) : ch.size ≤ ch.capacity := by
  obtain ⟨queue, free, hlists, -⟩ := h
  rw [← hlists.length_add, ← hlists.size]
  exact Nat.le_add_right _ _

/-- `channel_push` adds an item at the end. -/
theorem Holds.put (h : ch.Holds items) (hroom : ¬ ch.full) (data : ℕ) :
    ∃ ch', ch.put data = some ch' ∧ ch'.capacity = ch.capacity ∧ ch'.Holds (items ++ [data]) := by
  obtain ⟨queue, free, hlists, hdata⟩ := h
  obtain ⟨n, free', ch', -, hput, hputs⟩ := hlists.put hroom data
  refine ⟨ch', hput, hputs.capacity, queue ++ [n], free', hputs.lists, ?_⟩
  rw [List.map_append, List.map_append, List.map_congr_left hputs.kept, hdata, List.map_singleton,
    hputs.added, List.map_singleton]

theorem Holds.take (h : ch.Holds items) (hdata : ¬ ch.empty) :
    ∃ data items' ch', items = data :: items' ∧ ch.take = some (data, ch') ∧
      ch'.capacity = ch.capacity ∧ ch'.Holds items' := by
  obtain ⟨queue, free, hlists, hitems⟩ := h
  obtain ⟨n, queue', data, ch', rfl, htake, htakes⟩ := hlists.take hdata
  rw [List.map_cons, htakes.data] at hitems
  obtain ⟨d, items', rfl, hd, hrest⟩ := List.map_eq_cons_iff.mp hitems.symm
  cases hd
  refine ⟨data, items', ch', rfl, htake, htakes.capacity, queue', n :: free, htakes.lists, ?_⟩
  rw [List.map_congr_left htakes.kept, hrest]

end Holds

/-- The completed sections of the three functions. -/
inductive Section where
  | push (data : ℕ)
  | pop
  | popNowait

/-- A channel, with all that was pushed to it and popped from it. -/
structure History where
  channel : Channel
  pushed : List ℕ
  popped : List ℕ

/-- A completed section, by any thread. There is none of a function that has to wait. -/
def History.step (h : History) : Section → Option History
  | .push data =>
      match h.channel.push data with
      | some (some ch) => some { channel := ch, pushed := h.pushed ++ [data], popped := h.popped }
      | _ => none
  | .pop =>
      match h.channel.pop with
      | some (some (data, ch)) =>
          some { channel := ch, pushed := h.pushed, popped := h.popped ++ [data] }
      | _ => none
  | .popNowait =>
      h.channel.popNowait.map fun out =>
        { channel := out.2, pushed := h.pushed, popped := h.popped ++ out.1.toList }

/-- The channel is a bounded queue: its nodes are in two linked lists of the right
lengths, what is popped is what was pushed, in order, and a push that need not wait
finds a free node. -/
structure Intact (capacity : ℕ) (h : History) : Prop where
  capacity : h.channel.capacity = capacity ∧ h.channel.nodes.length = capacity
  lists : ∃ queue free : List ℕ,
    Path (nextOf h.channel.nodes) h.channel.head queue ∧ queue.getLast? = h.channel.tail ∧
      queue.length = h.channel.size ∧
    Path (nextOf h.channel.nodes) h.channel.freeList free ∧
      free.length = h.channel.capacity - h.channel.size ∧
    queue.Disjoint free ∧ queue.Nodup ∧ free.Nodup ∧
      ∀ i, i ∈ queue ∨ i ∈ free ↔ i < h.channel.nodes.length
  fifo : h.popped <+: h.pushed
  freeNode : ¬ h.channel.full →
    ∃ n node, h.channel.freeList = some n ∧ h.channel.nodes[n]? = some node

/-- What every section keeps. -/
structure Queued (capacity : ℕ) (h : History) : Prop where
  capacity : h.channel.capacity = capacity
  items : ∃ items, h.channel.Holds items ∧ h.popped ++ items = h.pushed

theorem Queued.intact {capacity : ℕ} {h : History} (hq : Queued capacity h) :
    Intact capacity h := by
  obtain ⟨hcapacity, items, ⟨queue, free, hlists, -⟩, hitems⟩ := hq
  have hadd := hlists.length_add
  have hsize := hlists.size
  have hnodup := hlists.nodup
  rw [List.nodup_append] at hnodup
  refine ⟨⟨hcapacity, hlists.length.trans hcapacity⟩, ⟨queue, free, hlists.fromHead, hlists.last,
    hsize, hlists.fromFreeList, by omega,
    fun i hi hi' => hnodup.2.2 i hi i hi' rfl, hnodup.1, hnodup.2.1, fun i => ?_⟩,
    ⟨items, hitems⟩, fun hroom => ?_⟩
  · rw [← List.mem_append, hlists.nodes.mem_iff, List.mem_range, hlists.length]
  · obtain ⟨n, free', -, rfl, -⟩ := hlists.put hroom 0
    exact ⟨n, _, hlists.fromFreeList.1, List.getElem?_eq_getElem (hlists.lt_length (by simp))⟩

theorem Queued.take {capacity : ℕ} {h : History} (hq : Queued capacity h)
    (hdata : ¬ h.channel.empty) :
    ∃ data ch', h.channel.take = some (data, ch') ∧
      Queued capacity { channel := ch', pushed := h.pushed, popped := h.popped ++ [data] } := by
  obtain ⟨hcapacity, items, hholds, hitems⟩ := hq
  obtain ⟨data, items', ch', rfl, htake, hsame, hholds'⟩ := hholds.take hdata
  refine ⟨data, ch', htake, hsame.trans hcapacity, items', hholds', ?_⟩
  rw [List.append_assoc]
  exact hitems

theorem Queued.step {capacity : ℕ} {h h' : History} {s : Section} (hq : Queued capacity h)
    (hstep : h.step s = some h') : Queued capacity h' := by
  cases s with
  | push data =>
      obtain ⟨hcapacity, items, hholds, hitems⟩ := hq
      rw [History.step, Channel.push] at hstep
      by_cases hfull : h.channel.full
      · rw [if_pos hfull] at hstep
        cases hstep
      · obtain ⟨ch', hput, hsame, hholds'⟩ := hholds.put hfull data
        rw [if_neg hfull, hput] at hstep
        cases hstep
        refine ⟨hsame.trans hcapacity, items ++ [data], hholds', ?_⟩
        rw [← List.append_assoc, hitems]
  | pop =>
      rw [History.step, Channel.pop] at hstep
      by_cases hempty : h.channel.empty
      · rw [if_pos hempty] at hstep
        cases hstep
      · obtain ⟨data, ch', htake, hq'⟩ := hq.take hempty
        rw [if_neg hempty, htake] at hstep
        cases hstep
        exact hq'
  | popNowait =>
      rw [History.step, Channel.popNowait] at hstep
      by_cases hempty : h.channel.empty
      · rw [if_pos hempty] at hstep
        cases hstep
        obtain ⟨hcapacity, items, hholds, hitems⟩ := hq
        exact ⟨hcapacity, items, hholds, (congrArg (· ++ items) (List.append_nil _)).trans hitems⟩
      · obtain ⟨data, ch', htake, hq'⟩ := hq.take hempty
        rw [if_neg hempty, htake] at hstep
        cases hstep
        exact hq'

/-- For every capacity and every sequence of completed sections by any threads, the
channel is a bounded queue that loses and duplicates nothing, in every state reached. -/
theorem channel_intact (capacity : ℕ) (hcap : 1 ≤ capacity) (sections : List Section) :
    ∃ ch, init capacity = some ch ∧
      Throughout History.step (Intact capacity) ⟨ch, [], []⟩ sections := by
  obtain ⟨ch, hinit, hlists⟩ := exists_init hcap
  have hcapacity : ch.capacity = capacity := by
    have hadd := hlists.length_add
    rw [List.length_nil, List.length_range, Nat.zero_add] at hadd
    exact hadd.symm
  refine ⟨ch, hinit, throughout_of_step (fun _ => Queued.intact) (fun h h' s _ => Queued.step)
    ⟨hcapacity, [], ⟨[], List.range capacity, hlists, rfl⟩, rfl⟩⟩

theorem channel_intact_two : ∃ ch h, init 2 = some ch ∧
    run History.step ⟨ch, [], []⟩ [.push 5, .push 6, .pop, .push 7, .popNowait] = some h ∧
      h.popped = [5, 6] ∧ Intact 2 h := by
  obtain ⟨ch, hinit, hall⟩ := channel_intact 2 (by decide)
    [.push 5, .push 6, .pop, .push 7, .popNowait]
  cases hinit
  exact ⟨_, _, rfl, rfl, rfl, throughout_iff_initial.mp hall _ _ List.prefix_rfl rfl⟩

end Channel

end ConArtist
