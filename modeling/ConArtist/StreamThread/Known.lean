import ConArtist.StreamThread.Responses

/-!
# What `pop_known_request` hands out

The request that `pop_known_request` finds leaves the array: the last active request
moves into its element and the array gets shorter. What is handed out is the pointer
to that element, so the caller sees the request that has moved there. `PopsKnown` is
what the function promises, and `LastOrSame` when it keeps it: the first request with
a mapping is the last active one, or cannot be told from it.
-/

namespace ConArtist

namespace StreamThread

namespace Thread

def Mapped (t : Thread) (userId : UInt64) : Prop := ∃ m ∈ t.mappings, m.id = userId

/-- `x` is the first active request with a mapped id, between `pre` and `post`. -/
structure FirstMapped (t : Thread) (pre : List Copy) (x : Copy) (post : List Copy) : Prop where
  active : t.active = pre ++ x :: post
  before : ∀ y ∈ pre, ¬ t.Mapped y.userId
  mapped : t.Mapped x.userId

/-- The promise: without a mapped request nothing changes. Otherwise there is a mapping
and a request with its id, which has the fields of the first one with a mapped id, and
the others stay active, each once. -/
structure PopsKnown (t : Thread) : Prop where
  unknown : (∀ x ∈ t.active, ¬ t.Mapped x.userId) → t.popKnownRequest = some (none, t)
  known : ∀ pre x post, t.FirstMapped pre x post →
    ∃ i j t' mapping request, t.popKnownRequest = some (some (i, j), t') ∧
      t'.mappings[j]? = some mapping ∧ t'.activeRequests[i]? = some request ∧
      request.userId = mapping.id ∧ request.toRequest = x.toRequest ∧
      (t'.active.map Copy.toRequest).Perm ((pre ++ post).map Copy.toRequest)

/-- The first active request with a mapped id has the fields of the last active one. -/
def LastOrSame (t : Thread) : Prop :=
  ∀ pre x post, t.FirstMapped pre x post →
    ∀ last, t.active.getLast? = some last → last.toRequest = x.toRequest

section Find

variable {t : Thread}

theorem findMapping_eq_none_iff {userId : UInt64} :
    t.findMapping userId = none ↔ ¬ t.Mapped userId := by
  rw [findMapping, List.findIdx?_eq_none_iff]
  simp [Mapped]

theorem findKnown_append {pre : List Copy} (h : ∀ y ∈ pre, ¬ t.Mapped y.userId) (k : ℕ)
    (requests : List Copy) :
    t.findKnown k (pre ++ requests) = t.findKnown (k + pre.length) requests := by
  induction pre generalizing k with
  | nil => rfl
  | cons y pre ih =>
      have hy := findMapping_eq_none_iff.mpr (h y List.mem_cons_self)
      have hrest := ih (fun z hz => h z (List.mem_cons_of_mem y hz)) (k + 1)
      rw [List.cons_append, findKnown, hy, List.length_cons, ← Nat.add_assoc, Nat.add_right_comm]
      exact hrest

theorem findKnown_eq_none {requests : List Copy} (h : ∀ y ∈ requests, ¬ t.Mapped y.userId) :
    t.findKnown 0 requests = none := by
  have hskip := findKnown_append h 0 []
  rw [List.append_nil] at hskip
  rw [hskip]
  rfl

end Find

/-- The last element moves over another one, and its own place is given up. -/
theorem perm_moveLast {α : Type*} {pre post : List α} {x last : α}
    (hlast : (pre ++ x :: post).getLast? = some last) :
    (((pre ++ x :: post).set pre.length last).dropLast).Perm (pre ++ post) := by
  rw [List.set_append_right _ _ (Nat.le_refl _), Nat.sub_self, List.set_cons_zero]
  cases hpost : post.reverse with
  | nil =>
      obtain rfl : post = [] := by simpa using hpost
      simp
  | cons y rest =>
      obtain rfl : post = rest.reverse ++ [y] := by
        rw [← List.reverse_reverse post, hpost, List.reverse_cons]
      have hsplit : ∀ z, pre ++ z :: (rest.reverse ++ [y]) = (pre ++ z :: rest.reverse) ++ [y] :=
        fun z => by simp
      rw [hsplit, List.getLast?_concat] at hlast
      obtain rfl : y = last := Option.some.inj hlast
      have hdrop : (pre ++ y :: (rest.reverse ++ [y])).dropLast = pre ++ y :: rest.reverse := by
        rw [hsplit, List.dropLast_concat]
      rw [hdrop]
      have hswap : ([y] ++ rest.reverse).Perm (rest.reverse ++ [y]) := List.perm_append_comm
      exact hswap.append_left pre

section Pop

variable {t : Thread} {pre post : List Copy} {x : Copy}

theorem popKnownRequest_unknown (h : ∀ x ∈ t.active, ¬ t.Mapped x.userId) :
    t.popKnownRequest = some (none, t) := by
  rw [popKnownRequest, findKnown_eq_none h]

/-- With a mapped request: its place and that of its mapping are found, and the last
active request is in its place afterwards. -/
theorem popKnownRequest_known (hsize : t.activeRequestsSize ≤ t.activeRequests.length)
    (h : t.FirstMapped pre x post) :
    ∃ j t' mapping last, t.popKnownRequest = some (some (pre.length, j), t') ∧
      t'.mappings[j]? = some mapping ∧ mapping.id = x.userId ∧
      t.active.getLast? = some last ∧ t'.activeRequests[pre.length]? = some last ∧
      t'.active.Perm (pre ++ post) := by
  obtain ⟨j, hj⟩ : ∃ j, t.findMapping x.userId = some j := by
    rw [← Option.isSome_iff_exists, ← Option.ne_none_iff_isSome, Ne, findMapping_eq_none_iff]
    exact not_not_intro h.mapped
  obtain ⟨mapping, hmapping, hid⟩ := mapping_of_findMapping hj
  have hlength : t.active.length = t.activeRequestsSize := by
    rw [active, List.length_take, Nat.min_eq_left hsize]
  have hcount : pre.length + (post.length + 1) = t.activeRequestsSize := by
    rw [← hlength, h.active, List.length_append, List.length_cons]
  have hfind : t.findKnown 0 t.active = some (pre.length, j) := by
    rw [h.active, findKnown_append h.before, Nat.zero_add, findKnown, hj]
  obtain ⟨last, hlast⟩ : ∃ last, t.activeRequests[t.activeRequestsSize - 1]? = some last :=
    ⟨_, List.getElem?_eq_getElem (by omega)⟩
  have hgetLast : t.active.getLast? = some last := by
    rw [List.getLast?_eq_getElem?, hlength, active, List.getElem?_take_of_lt (by omega), hlast]
  have hpop : t.popKnownRequest = some (some (pre.length, j), { t with
      activeRequests := t.activeRequests.set pre.length last
      activeRequestsSize := t.activeRequestsSize - 1 }) := by
    rw [popKnownRequest, hfind]
    simp only [hlast, Option.map_some]
  refine ⟨j, _, mapping, last, hpop, hmapping, hid, hgetLast,
    List.getElem?_set_self (by omega), ?_⟩
  have hactive : (t.activeRequests.set pre.length last).take (t.activeRequestsSize - 1) =
      (t.active.set pre.length last).dropLast := by
    rw [List.dropLast_eq_take, List.length_set, hlength, active, List.take_set, List.take_set,
      List.take_take, Nat.min_eq_left (Nat.sub_le _ _)]
  rw [h.active] at hgetLast
  rw [active, hactive, h.active]
  exact perm_moveLast hgetLast

/-- For every array of active requests and every list of mappings: the function keeps its
promise exactly when the first request with a mapped id has the fields of the last
active one. -/
theorem popsKnown_iff (t : Thread) (hsize : t.activeRequestsSize ≤ t.activeRequests.length) :
    t.PopsKnown ↔ t.LastOrSame := by
  constructor
  · intro h pre x post hfirst last hlast
    obtain ⟨j, t', mapping, last', hpop, -, -, hlast', hmoved, -⟩ :=
      popKnownRequest_known hsize hfirst
    obtain ⟨i, j', t'', mapping', request, hpop', -, hrequest, -, hsame, -⟩ :=
      h.known pre x post hfirst
    rw [hpop] at hpop'
    cases hpop'
    obtain rfl : last' = last := Option.some.inj (hlast'.symm.trans hlast)
    obtain rfl : last' = request := Option.some.inj (hmoved.symm.trans hrequest)
    exact hsame
  · intro h
    refine ⟨popKnownRequest_unknown, fun pre x post hfirst => ?_⟩
    obtain ⟨j, t', mapping, last, hpop, hmapping, hid, hlast, hmoved, hperm⟩ :=
      popKnownRequest_known hsize hfirst
    have hsame := h pre x post hfirst last hlast
    have huser : last.userId = x.userId := congrArg Request.userId hsame
    exact ⟨pre.length, j, t', mapping, last, hpop, hmapping, hmoved, huser.trans hid.symm, hsame,
      hperm.map Copy.toRequest⟩

end Pop

/-- A thread with these mappings and active requests, and channels for one pointer. -/
def holding (mappings : List StreamMapping) (requests : List Copy) : Thread where
  basePath := ⟨[], 1024⟩
  channelRequests := ⟨none, none, some 0, [⟨0, none⟩], 0, 1⟩
  channelResponses := ⟨none, none, some 0, [⟨0, none⟩], 0, 1⟩
  fileMtime := 0
  mappings := mappings
  mappingsCapacity := 1024
  activeRequests := requests
  activeRequestsSize := requests.length

/-- Of two active requests the second has a mapping. -/
theorem popsKnown_second :
    (holding [⟨1, [97]⟩] [⟨⟨5, 0, 64, none⟩, 0⟩, ⟨⟨1, 2, 32, none⟩, 1⟩]).PopsKnown := by
  refine (popsKnown_iff _ (Nat.le_refl 2)).mpr ?_
  rintro pre x post ⟨hactive, -, m, hm, hid⟩ last hlast
  obtain rfl : m = ⟨1, [97]⟩ := List.mem_singleton.mp hm
  have hmem : x ∈ pre ++ x :: post := List.mem_append_right _ List.mem_cons_self
  rw [← hactive] at hmem
  have hx : x ∈ [(⟨⟨5, 0, 64, none⟩, 0⟩ : Copy), ⟨⟨1, 2, 32, none⟩, 1⟩] := hmem
  have hlast' : (⟨⟨1, 2, 32, none⟩, 1⟩ : Copy) = last := Option.some.inj hlast
  obtain rfl | hsecond := List.mem_cons.mp hx
  · exact absurd hid (by decide)
  · rw [List.mem_singleton.mp hsecond, ← hlast']

/-- Of two active requests the first has a mapping. What is handed out is the second. -/
theorem not_popsKnown_first :
    ¬ (holding [⟨1, [97]⟩] [⟨⟨1, 0, 64, none⟩, 0⟩, ⟨⟨5, 2, 32, none⟩, 1⟩]).PopsKnown := by
  intro h
  obtain ⟨i, j, t', mapping, request, hpop, -, hrequest, -, hsame, -⟩ :=
    h.known [] ⟨⟨1, 0, 64, none⟩, 0⟩ [⟨⟨5, 2, 32, none⟩, 1⟩]
      ⟨rfl, by simp, ⟨1, [97]⟩, List.mem_singleton_self _, rfl⟩
  obtain ⟨hplaces, rfl⟩ := Prod.mk.inj (Option.some.inj hpop)
  obtain ⟨rfl, rfl⟩ := Prod.mk.inj (Option.some.inj hplaces)
  obtain rfl : (⟨⟨5, 2, 32, none⟩, 1⟩ : Copy) = request := Option.some.inj hrequest
  exact absurd (congrArg Request.userId hsame) (by decide)

end Thread

end StreamThread

end ConArtist
