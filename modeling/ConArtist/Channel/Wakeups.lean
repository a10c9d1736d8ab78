import ConArtist.Channel.Queue
import ConArtist.Foundation.SharedWait

/-!
# Wake-ups of the channel

Producers call `channel_push` and consumers `channel_pop`, and both wait on `m_cond`. A
thread is parked there from the step in which its test fails to a step of another thread
that signals it, after which it takes the mutex again at any time. Which parked thread
a signal wakes is up to the system.

The numbers of threads and nodes are those of a buffer with a single condition variable,
and each step of a thread is one of the buffer, and conversely.
-/

namespace ConArtist

namespace Channel

open Machine SharedWait

/-- What a thread uses the channel for. -/
inductive Role where
  | producer
  | consumer
deriving DecidableEq

def Role.other : Role → Role
  | .producer => .consumer
  | .consumer => .producer

/-- A call of `channel_push` or of `channel_pop`. -/
inductive Call where
  | push (data : ℕ)
  | pop

def Call.role : Call → Role
  | .push _ => .producer
  | .pop => .consumer

/-- Where a thread stands: outside of the two functions, in `uv_cond_wait`, or signalled
there and about to take the mutex again. -/
inductive Thread where
  | idle (role : Role)
  | waiting (call : Call)
  | woken (call : Call)

/-- The threads parked on `m_cond`, with what waking makes of them. -/
def Thread.onCond : Thread → Option Thread
  | .waiting call => some (.woken call)
  | _ => none

/-- A channel and the threads that use it. -/
structure System where
  channel : Channel
  threads : List Thread

def newSystem (ch : Channel) (producers consumers : ℕ) : System where
  channel := ch
  threads := List.replicate producers (.idle .producer) ++
    List.replicate consumers (.idle .consumer)

/-- A function from the test of its loop. What a pop returns goes to its caller. -/
def access (ch : Channel) : Call → Option (Option Channel)
  | .push data => ch.push data
  | .pop => ch.pop.map (Option.map Prod.snd)

/-- Thread `i` has the mutex, at the test of the loop: it waits, or does its work and
signals, and the system wakes the thread `wake`. -/
def System.enter (s : System) (i : ℕ) (call : Call) (wake : ℕ) : Option System :=
  match s.channel.access call with
  | none => none
  | some none => some { s with threads := s.threads.set i (.waiting call) }
  | some (some ch) =>
      (CondVar.signal Thread.onCond (s.threads.set i (.idle call.role)) wake).map fun threads =>
        { channel := ch, threads := threads }

inductive Action where
  | call (i : ℕ) (call : Call) (wake : ℕ)
  | resume (i wake : ℕ)

/-- The steps of the system, in any order. -/
def step (s : System) : Action → Option System
  | .call i call wake =>
      match s.threads[i]? with
      | some (.idle role) => if role = call.role then s.enter i call wake else none
      | _ => none
  | .resume i wake =>
      match s.threads[i]? with
      | some (.woken call) => s.enter i call wake
      | _ => none

/-- All threads are parked, one of them although the channel has what it waits for. -/
structure Deadlocked (s : System) : Prop where
  parked : ∀ t ∈ s.threads, ∃ call, t = .waiting call
  useful : (∃ data, .waiting (.push data) ∈ s.threads ∧ s.channel.size < s.channel.capacity) ∨
    .waiting .pop ∈ s.threads ∧ 0 < s.channel.size

/-- No run comes to such a state. -/
def NoLostWakeup (s : System) : Prop :=
  ∀ actions s', run step s actions = some s' → ¬ Deadlocked s'

/-- The role of a thread, and whether it is parked. -/
def Thread.kind : Thread → Role × Bool
  | .idle role => (role, false)
  | .waiting call => (call.role, true)
  | .woken call => (call.role, false)

def number (threads : List Thread) (kind : Role × Bool) : ℕ :=
  threads.countP fun t => decide (t.kind = kind)

def party (threads : List Thread) (role : Role) : Party :=
  ⟨number threads (role, false), number threads (role, true)⟩

/-- The nodes that a thread of the role has use for. -/
def usable (ch : Channel) : Role → ℕ
  | .producer => ch.capacity - ch.size
  | .consumer => ch.size

/-- The buffer, seen by the threads of a role. -/
def System.view (s : System) (role : Role) : Buffer where
  free := s.channel.usable role
  full := s.channel.usable role.other
  writers := party s.threads role
  readers := party s.threads role.other

theorem Role.other_other (role : Role) : role.other.other = role := by cases role <;> rfl

theorem Role.eq_or_other (r role : Role) : r = role ∨ r = role.other := by
  cases r <;> cases role <;> decide

theorem Role.other_ne (role : Role) : role.other ≠ role := by cases role <;> decide

theorem System.view_other (s : System) (role : Role) : s.view role.other = (s.view role).swap := by
  rw [view, view, Buffer.swap, role.other_other]

section Numbers

variable {threads : List Thread} {i : ℕ} {t : Thread}

theorem number_set (h : threads[i]? = some t) (t' : Thread) (kind : Role × Bool) :
    number (threads.set i t') kind + (if t.kind = kind then 1 else 0) =
      number threads kind + if t'.kind = kind then 1 else 0 := by
  have hadd := CondVar.countP_set_add (p := fun t => decide (t.kind = kind)) h t'
  simp only [decide_eq_true_eq] at hadd
  exact hadd

theorem party_set_of_eq (h : threads[i]? = some t) {t' : Thread} (hkind : t'.kind = t.kind)
    (role : Role) : party (threads.set i t') role = party threads role := by
  have hsame : ∀ kind, number (threads.set i t') kind = number threads kind := by
    intro kind
    have hnumber := number_set h t' kind
    rw [hkind] at hnumber
    exact Nat.add_right_cancel hnumber
  rw [party, party, hsame, hsame]

theorem party_set_other (h : threads[i]? = some t) {t' : Thread} {role r : Role}
    (hrole : t.kind.1 = role) (hrole' : t'.kind.1 = role) (hr : r ≠ role) :
    party (threads.set i t') r = party threads r := by
  have hsame : ∀ b, number (threads.set i t') (r, b) = number threads (r, b) := by
    intro b
    have hnumber := number_set h t' (r, b)
    rwa [if_neg (fun heq => hr (by rw [← hrole, heq])),
      if_neg (fun heq => hr (by rw [← hrole', heq]))] at hnumber
  rw [party, party, hsame, hsame]

theorem number_set_moves (h : threads[i]? = some t) {t' : Thread} {kind kind' : Role × Bool}
    (hkind : t.kind = kind) (hkind' : t'.kind = kind') (hne : kind ≠ kind') :
    number (threads.set i t') kind + 1 = number threads kind ∧
      number (threads.set i t') kind' = number threads kind' + 1 := by
  subst hkind hkind'
  have hleft := number_set h t' t.kind
  have hjoined := number_set h t' t'.kind
  rw [if_pos rfl, if_neg hne.symm] at hleft
  rw [if_pos rfl, if_neg hne] at hjoined
  exact ⟨hleft, hjoined⟩

theorem party_set_parks (h : threads[i]? = some t) {t' : Thread} {role : Role}
    (hkind : t.kind = (role, false)) (hkind' : t'.kind = (role, true)) {a x : ℕ}
    (hparty : party threads role = ⟨a + 1, x⟩) :
    party (threads.set i t') role = ⟨a, x + 1⟩ := by
  obtain ⟨hawake, hparked⟩ := number_set_moves h hkind hkind' (by simp)
  simp only [party, Party.mk.injEq] at hparty ⊢
  omega

theorem party_set_wakes (h : threads[i]? = some t) {t' : Thread} {role : Role}
    (hkind : t.kind = (role, true)) (hkind' : t'.kind = (role, false)) {a x : ℕ}
    (hparty : party threads role = ⟨a, x + 1⟩) :
    party (threads.set i t') role = ⟨a + 1, x⟩ := by
  obtain ⟨hparked, hawake⟩ := number_set_moves h hkind hkind' (by simp)
  simp only [party, Party.mk.injEq] at hparty ⊢
  omega

theorem exists_of_number {kind : Role × Bool} (h : 0 < number threads kind) :
    ∃ (i : ℕ) (t : Thread), threads[i]? = some t ∧ t.kind = kind := by
  obtain ⟨t, ht, hkind⟩ := List.countP_pos_iff.mp h
  obtain ⟨i, hi⟩ := List.mem_iff_getElem?.mp ht
  exact ⟨i, t, hi, of_decide_eq_true hkind⟩

theorem number_pos (h : threads[i]? = some t) : 0 < number threads t.kind :=
  List.countP_pos_iff.mpr ⟨t, List.mem_of_getElem? h, decide_eq_true rfl⟩

theorem number_eq_zero {kind : Role × Bool} (h : ∀ t ∈ threads, t.kind ≠ kind) :
    number threads kind = 0 :=
  List.countP_eq_zero.mpr fun t ht => by rw [decide_eq_true_eq]; exact h t ht

end Numbers

theorem Thread.onCond_eq_some {t t' : Thread} :
    t.onCond = some t' ↔ ∃ call, t = .waiting call ∧ t' = .woken call := by
  cases t <;> simp [onCond, eq_comm]

theorem Thread.onCond_eq_none {t : Thread} : t.onCond = none ↔ t.kind.2 = false := by
  cases t <;> simp [onCond, kind]

section Access

variable {ch : Channel} {items : List ℕ} {call : Call}

theorem access_of_none (hnone : ch.usable call.role = 0) : ch.access call = some none := by
  cases call with
  | push data =>
      have hfull : ch.full := Nat.le_of_sub_eq_zero hnone
      rw [access, push, if_pos hfull]
  | pop =>
      have hempty : ch.empty := hnone
      rw [access, pop, if_pos hempty]
      rfl

theorem access_of_some (hholds : ch.Holds items) {f : ℕ} (hsome : ch.usable call.role = f + 1) :
    ∃ ch' items', ch.access call = some (some ch') ∧ ch'.Holds items' ∧
      ch'.usable call.role = f ∧
      ch'.usable call.role.other = ch.usable call.role.other + 1 := by
  have hle := hholds.size_le
  have hsize := hholds.size
  cases call with
  | push data =>
      have hroom : ch.capacity - ch.size = f + 1 := hsome
      have hfull : ¬ ch.full := fun hfull => by rw [full] at hfull; omega
      obtain ⟨ch', hput, hcapacity, hholds'⟩ := hholds.put hfull data
      have hsize' := hholds'.size
      rw [List.length_append, List.length_singleton] at hsize'
      refine ⟨ch', _, ?_, hholds', ?_, ?_⟩
      · rw [access, push, if_neg hfull, hput, Option.map_some]
      · change ch'.capacity - ch'.size = f
        omega
      · change ch'.size = ch.size + 1
        omega
  | pop =>
      have hdata : ch.size = f + 1 := hsome
      have hempty : ¬ ch.empty := fun hempty => by rw [empty] at hempty; omega
      obtain ⟨data, items', ch', rfl, htake, hcapacity, hholds'⟩ := hholds.take hempty
      have hsize' := hholds'.size
      rw [List.length_cons] at hsize
      refine ⟨ch', _, ?_, hholds', ?_, ?_⟩
      · rw [access, pop, if_neg hempty, htake]
        rfl
      · change ch'.size = f
        omega
      · change ch'.capacity - ch'.size = ch.capacity - ch.size + 1
        omega

end Access

section Simulation

variable {s : System} {items : List ℕ} {i n f a x : ℕ} {t : Thread} {call : Call} {role : Role}
  {r : Party}

theorem view_of_parks (ht : s.threads[i]? = some t) (hkind : t.kind = (call.role, false))
    (hview : s.view call.role = ⟨f, n, ⟨a + 1, x⟩, r⟩) :
    ({ s with threads := s.threads.set i (.waiting call) } : System).view call.role =
      ⟨f, n, ⟨a, x + 1⟩, r⟩ := by
  simp only [System.view, Buffer.mk.injEq] at hview ⊢
  refine ⟨hview.1, hview.2.1, party_set_parks ht hkind rfl hview.2.2.1, ?_⟩
  rw [party_set_other ht (congrArg Prod.fst hkind) rfl call.role.other_ne]
  exact hview.2.2.2

/-- The view after the thread `i` has done its work. -/
theorem view_of_works {ch : Channel} {w : Party} (ht : s.threads[i]? = some t)
    (hkind : t.kind = (role, false)) (hview : s.view role = ⟨f + 1, n, w, r⟩)
    (hfree : ch.usable role = f) (hfull : ch.usable role.other = s.channel.usable role.other + 1) :
    (⟨ch, s.threads.set i (.idle role)⟩ : System).view role = ⟨f, n + 1, w, r⟩ := by
  have hsame : (Thread.idle role).kind = t.kind := hkind.symm
  simp only [System.view, Buffer.mk.injEq] at hview ⊢
  rw [party_set_of_eq ht hsame, party_set_of_eq ht hsame]
  exact ⟨hfree, by rw [hfull, hview.2.1], hview.2.2⟩

theorem view_of_wakesWriter (ht : s.threads[i]? = some (.waiting call)) (hrole : call.role = role)
    (hview : s.view role = ⟨f, n, ⟨a, x + 1⟩, r⟩) :
    ({ s with threads := s.threads.set i (.woken call) } : System).view role =
      ⟨f, n, ⟨a + 1, x⟩, r⟩ := by
  subst hrole
  simp only [System.view, Buffer.mk.injEq] at hview ⊢
  have hsame : (Thread.woken call).kind.1 = call.role := rfl
  refine ⟨hview.1, hview.2.1, party_set_wakes ht rfl rfl hview.2.2.1, ?_⟩
  rw [party_set_other ht rfl hsame call.role.other_ne]
  exact hview.2.2.2

theorem view_of_wakesReader {w : Party} (ht : s.threads[i]? = some (.waiting call))
    (hrole : call.role = role.other) (hview : s.view role = ⟨f, n, w, ⟨a, x + 1⟩⟩) :
    ({ s with threads := s.threads.set i (.woken call) } : System).view role =
      ⟨f, n, w, ⟨a + 1, x⟩⟩ := by
  have hother : s.view role.other = ⟨n, f, ⟨a, x + 1⟩, w⟩ := by
    rw [System.view_other, hview]
    rfl
  have hwakes := view_of_wakesWriter ht hrole hother
  rw [System.view_other] at hwakes
  exact congrArg Buffer.swap hwakes

/-- The signal of a thread that has done its work, whichever thread it wakes. -/
theorem write_of_signal {threads : List Thread} {wake : ℕ} {y b : ℕ}
    (hview : s.view role = ⟨f, n + 1, ⟨a + 1, x⟩, ⟨b, y⟩⟩)
    (hsignal : CondVar.signal Thread.onCond s.threads wake = some threads) :
    Write ⟨f + 1, n, ⟨a + 1, x⟩, ⟨b, y⟩⟩ (({ s with threads := threads } : System).view role) := by
  have hx : number s.threads (role, true) = x :=
    congrArg Party.parked (congrArg Buffer.writers hview)
  have hy : number s.threads (role.other, true) = y :=
    congrArg Party.parked (congrArg Buffer.readers hview)
  rcases CondVar.signal_cases hsignal with ⟨rfl, hnone⟩ | ⟨u, u', hu, hwait, rfl⟩
  · have hzero : ∀ role, number s.threads (role, true) = 0 := by
      intro role
      refine number_eq_zero fun t ht hkind => ?_
      have hawake := Thread.onCond_eq_none.mp (hnone t ht)
      rw [hkind] at hawake
      cases hawake
    rw [hzero] at hx hy
    subst hx hy
    rw [hview]
    exact .wakesNobody
  · obtain ⟨call, rfl, rfl⟩ := Thread.onCond_eq_some.mp hwait
    have hpos : 0 < number s.threads (call.role, true) := number_pos hu
    rcases Role.eq_or_other call.role role with hrole | hrole
    · rw [hrole, hx] at hpos
      obtain ⟨x, rfl⟩ := Nat.exists_eq_add_of_le' hpos
      rw [view_of_wakesWriter hu hrole hview]
      exact .wakesWriter
    · rw [hrole, hy] at hpos
      obtain ⟨y, rfl⟩ := Nat.exists_eq_add_of_le' hpos
      rw [view_of_wakesReader hu hrole hview]
      exact .wakesReader

theorem view_of_awake (ht : s.threads[i]? = some t) (hkind : t.kind = (role, false)) :
    ∃ n a x b y, s.view role = ⟨s.channel.usable role, n, ⟨a + 1, x⟩, ⟨b, y⟩⟩ := by
  have hpos : 0 < number s.threads (role, false) := hkind ▸ number_pos ht
  obtain ⟨a, ha⟩ := Nat.exists_eq_add_of_le' hpos
  exact ⟨_, a, _, _, _, by rw [System.view, party, ha]⟩

theorem write_of_enter {s' : System} {wake : ℕ} (hholds : s.channel.Holds items)
    (ht : s.threads[i]? = some t) (hkind : t.kind = (call.role, false))
    (h : s.enter i call wake = some s') :
    Write (s.view call.role) (s'.view call.role) ∧ ∃ items', s'.channel.Holds items' := by
  obtain ⟨n, a, x, b, y, hview⟩ := view_of_awake ht hkind
  rcases hfree : s.channel.usable call.role with _ | f
  · simp only [System.enter, access_of_none hfree] at h
    cases h
    rw [hfree] at hview
    rw [view_of_parks ht hkind hview, hview]
    exact ⟨.parks, items, hholds⟩
  · obtain ⟨ch, items', haccess, hholds', hfree', hfull⟩ := access_of_some hholds hfree
    simp only [System.enter, haccess] at h
    obtain ⟨threads, hsignal, rfl⟩ := Option.map_eq_some_iff.mp h
    rw [hfree] at hview
    rw [hview]
    exact ⟨write_of_signal (view_of_works ht hkind hview hfree' hfull) hsignal, items', hholds'⟩

theorem step_buffer {s' : System} {action : Action} (hholds : s.channel.Holds items)
    (h : step s action = some s') :
    Step (s.view .producer) (s'.view .producer) ∧ ∃ items', s'.channel.Holds items' := by
  obtain ⟨i, wake, call, t, ht, hkind, henter⟩ : ∃ i wake call t, s.threads[i]? = some t ∧
      t.kind = (call.role, false) ∧ s.enter i call wake = some s' := by
    cases action with
    | call i call wake =>
        rw [step] at h
        split at h
        case h_1 role ht =>
          split at h
          case isTrue hrole => exact ⟨i, wake, call, _, ht, by rw [← hrole]; rfl, h⟩
          case isFalse => cases h
        case h_2 => cases h
    | resume i wake =>
        rw [step] at h
        split at h
        case h_1 call ht => exact ⟨i, wake, call, _, ht, rfl, h⟩
        case h_2 => cases h
  obtain ⟨hwrite, hholds'⟩ := write_of_enter hholds ht hkind henter
  refine ⟨?_, hholds'⟩
  rcases Role.eq_or_other call.role .producer with hrole | hrole
  · rw [hrole] at hwrite
    exact .write hwrite
  · rw [hrole, System.view_other, System.view_other] at hwrite
    exact .read hwrite

theorem exists_enter (hawake : 0 < number s.threads (role, false)) :
    ∃ (i : ℕ) (t : Thread) (call : Call), s.threads[i]? = some t ∧ t.kind = (call.role, false) ∧
      call.role = role ∧ ∀ wake, ∃ action, step s action = s.enter i call wake := by
  obtain ⟨i, t, ht, hkind⟩ := exists_of_number hawake
  cases t with
  | idle r =>
      obtain ⟨call, hcall⟩ : ∃ call : Call, call.role = role := by
        cases role with
        | producer => exact ⟨.push 0, rfl⟩
        | consumer => exact ⟨.pop, rfl⟩
      have hrole : r = call.role := (congrArg Prod.fst hkind).trans hcall.symm
      refine ⟨i, _, call, ht, by rw [← hrole]; rfl, hcall, fun wake => ⟨.call i call wake, ?_⟩⟩
      simp only [step, ht, if_pos hrole]
  | waiting call => cases hkind
  | woken call =>
      refine ⟨i, _, call, ht, rfl, congrArg Prod.fst hkind, fun wake => ⟨.resume i wake, ?_⟩⟩
      simp only [step, ht]

theorem exists_waiting {threads : List Thread} (hparked : 0 < number threads (role, true)) :
    ∃ (j : ℕ) (call : Call), threads[j]? = some (.waiting call) ∧ call.role = role := by
  obtain ⟨j, u, hu, hkind⟩ := exists_of_number hparked
  cases u with
  | waiting call => exact ⟨j, call, hu, congrArg Prod.fst hkind⟩
  | idle _ => cases hkind
  | woken call => cases hkind

/-- The signal of a thread that has done its work can wake each parked thread. -/
theorem exists_wakes {ch : Channel} (haccess : s.channel.access call = some (some ch))
    (hstep : ∀ wake, ∃ action, step s action = s.enter i call wake)
    (hparked : 0 < number (s.threads.set i (.idle call.role)) (role, true)) :
    ∃ j c action, (s.threads.set i (.idle call.role))[j]? = some (.waiting c) ∧ c.role = role ∧
      step s action = some ⟨ch, (s.threads.set i (.idle call.role)).set j (.woken c)⟩ := by
  obtain ⟨j, c, hj, hrole⟩ := exists_waiting hparked
  obtain ⟨action, haction⟩ := hstep j
  have hsignal : CondVar.signal Thread.onCond _ j = some _ := CondVar.signal_of_some hj rfl
  simp only [System.enter, haccess, hsignal] at haction
  exact ⟨j, c, action, hj, hrole, haction⟩

theorem exists_wakesNobody {ch : Channel} (haccess : s.channel.access call = some (some ch))
    (hstep : ∀ wake, ∃ action, step s action = s.enter i call wake)
    (hnone : ∀ role, number (s.threads.set i (.idle call.role)) (role, true) = 0) :
    ∃ action, step s action = some ⟨ch, s.threads.set i (.idle call.role)⟩ := by
  obtain ⟨action, haction⟩ := hstep 0
  rw [System.enter, haccess] at haction
  refine ⟨action, haction.trans (congrArg (Option.map _) (CondVar.signal_of_none ?_ 0))⟩
  intro u hu
  refine Thread.onCond_eq_none.mpr (Bool.eq_false_iff.mpr fun hparked => ?_)
  obtain ⟨j, hj⟩ := List.mem_iff_getElem?.mp hu
  have hpos := number_pos hj
  rw [show u.kind = (u.kind.1, true) from Prod.ext rfl hparked, hnone] at hpos
  exact Nat.lt_irrefl 0 hpos

theorem exists_step_of_write {b : Buffer} (hholds : s.channel.Holds items)
    (h : Write (s.view role) b) : ∃ action s', step s action = some s' ∧ s'.view role = b := by
  obtain ⟨i, t, call, ht, hkind, rfl, hstep⟩ := exists_enter h.awake
  have hfree : (s.view call.role).free = s.channel.usable call.role := rfl
  generalize hview : s.view call.role = v at h hfree
  cases h with
  | parks =>
      obtain ⟨action, haction⟩ := hstep 0
      simp only [System.enter, access_of_none hfree.symm] at haction
      exact ⟨action, _, haction, view_of_parks ht hkind hview⟩
  | wakesWriter =>
      obtain ⟨ch, -, haccess, -, hfree', hfull⟩ := access_of_some hholds hfree.symm
      have hworks := view_of_works ht hkind hview hfree' hfull
      have hparked := congrArg Party.parked (congrArg Buffer.writers hworks)
      obtain ⟨j, c, action, hj, hrole, haction⟩ :=
        exists_wakes haccess hstep (Nat.lt_of_lt_of_eq (Nat.succ_pos _) hparked.symm)
      exact ⟨action, _, haction, view_of_wakesWriter hj hrole hworks⟩
  | wakesReader =>
      obtain ⟨ch, -, haccess, -, hfree', hfull⟩ := access_of_some hholds hfree.symm
      have hworks := view_of_works ht hkind hview hfree' hfull
      have hparked := congrArg Party.parked (congrArg Buffer.readers hworks)
      obtain ⟨j, c, action, hj, hrole, haction⟩ :=
        exists_wakes haccess hstep (Nat.lt_of_lt_of_eq (Nat.succ_pos _) hparked.symm)
      exact ⟨action, _, haction, view_of_wakesReader hj hrole hworks⟩
  | wakesNobody =>
      obtain ⟨ch, -, haccess, -, hfree', hfull⟩ := access_of_some hholds hfree.symm
      have hworks := view_of_works ht hkind hview hfree' hfull
      obtain ⟨action, haction⟩ := exists_wakesNobody haccess hstep fun role => by
        rcases Role.eq_or_other role call.role with rfl | rfl
        · exact congrArg Party.parked (congrArg Buffer.writers hworks)
        · exact congrArg Party.parked (congrArg Buffer.readers hworks)
      exact ⟨action, _, haction, hworks⟩

theorem exists_step_of_step {b : Buffer} (hholds : s.channel.Holds items)
    (h : Step (s.view .producer) b) :
    ∃ action s', step s action = some s' ∧ s'.view .producer = b := by
  cases h with
  | write h => exact exists_step_of_write hholds h
  | read h =>
      rw [← System.view_other] at h
      obtain ⟨action, s', hstep, hview⟩ := exists_step_of_write hholds h
      rw [System.view_other] at hview
      exact ⟨action, s', hstep, congrArg Buffer.swap hview⟩

theorem reaches_of_run {s' : System} {actions : List Action} (hholds : s.channel.Holds items)
    (h : run step s actions = some s') : Reaches (s.view .producer) (s'.view .producer) := by
  induction actions generalizing s items with
  | nil =>
      cases h
      exact .refl
  | cons action actions ih =>
      obtain ⟨t, hstep, hrest⟩ := (run_cons_eq_some step).mp h
      obtain ⟨hbuffer, items', hholds'⟩ := step_buffer hholds hstep
      exact .head hbuffer (ih hholds' hrest)

theorem exists_run_of_reaches {b b' : Buffer} (h : Reaches b b') (hholds : s.channel.Holds items)
    (hview : s.view .producer = b) :
    ∃ actions s', run step s actions = some s' ∧ s'.view .producer = b' := by
  induction h using Relation.ReflTransGen.head_induction_on generalizing s items with
  | refl => exact ⟨[], s, rfl, hview⟩
  | head hstep _ ih =>
      subst hview
      obtain ⟨action, t, haction, ht⟩ := exists_step_of_step hholds hstep
      obtain ⟨-, items', hholds'⟩ := step_buffer hholds haction
      obtain ⟨actions, s', hrun, hs'⟩ := ih hholds' ht
      exact ⟨action :: actions, s', (run_cons_eq_some step).mpr ⟨t, haction, hrun⟩, hs'⟩

theorem deadlocked_iff : Deadlocked s ↔ Stuck (s.view .producer) := by
  constructor
  · rintro ⟨hparked, huseful⟩
    have hnone : ∀ role, number s.threads (role, false) = 0 := by
      intro role
      refine number_eq_zero fun t ht hkind => ?_
      obtain ⟨call, rfl⟩ := hparked t ht
      cases hkind
    refine ⟨hnone .producer, hnone .consumer, huseful.imp ?_ ?_⟩
    · rintro ⟨data, hmem, hroom⟩
      obtain ⟨i, hi⟩ := List.mem_iff_getElem?.mp hmem
      exact ⟨number_pos hi, Nat.sub_pos_of_lt hroom⟩
    · rintro ⟨hmem, hdata⟩
      obtain ⟨i, hi⟩ := List.mem_iff_getElem?.mp hmem
      exact ⟨number_pos hi, hdata⟩
  · rintro ⟨hproducers, hconsumers, huseful⟩
    have hnone : ∀ role, number s.threads (role, false) = 0 := by
      intro role
      cases role with
      | producer => exact hproducers
      | consumer => exact hconsumers
    refine ⟨fun t ht => ?_, huseful.imp ?_ ?_⟩
    · obtain ⟨i, hi⟩ := List.mem_iff_getElem?.mp ht
      cases t with
      | waiting call => exact ⟨call, rfl⟩
      | idle role => exact absurd (number_pos hi) (Nat.not_lt.mpr (Nat.le_of_eq (hnone role)))
      | woken call => exact absurd (number_pos hi) (Nat.not_lt.mpr (Nat.le_of_eq (hnone call.role)))
    · rintro ⟨hparked, hroom⟩
      obtain ⟨j, call, hj, hrole⟩ := exists_waiting hparked
      cases call with
      | push data => exact ⟨data, List.mem_of_getElem? hj, Nat.lt_of_sub_pos hroom⟩
      | pop => cases hrole
    · rintro ⟨hparked, hdata⟩
      obtain ⟨j, call, hj, hrole⟩ := exists_waiting hparked
      cases call with
      | push data => cases hrole
      | pop => exact ⟨List.mem_of_getElem? hj, hdata⟩

end Simulation

theorem view_newSystem {ch : Channel} (hempty : ch.size = 0) (producers consumers : ℕ) :
    (newSystem ch producers consumers).view .producer =
      start ch.capacity producers consumers := by
  have hnumber : ∀ role parked, number (newSystem ch producers consumers).threads (role, parked) =
      if parked then 0 else match role with
        | .producer => producers
        | .consumer => consumers := by
    intro role parked
    rw [number, newSystem, List.countP_append, List.countP_replicate, List.countP_replicate]
    cases role <;> cases parked <;> simp [Thread.kind]
  rw [System.view, party, party, hnumber, hnumber, hnumber, hnumber]
  change Buffer.mk (ch.capacity - ch.size) ch.size ⟨producers, 0⟩ ⟨consumers, 0⟩ = _
  rw [hempty]
  rfl

/-- For every capacity and every number of producers and consumers, no order of pushes and
pops leaves all threads parked with something to do exactly when there are no producers,
no consumers, or at most two threads for every node. -/
theorem noLostWakeup_iff {capacity : ℕ} (hcap : 1 ≤ capacity) (producers consumers : ℕ) :
    ∃ ch, init capacity = some ch ∧ (NoLostWakeup (newSystem ch producers consumers) ↔
      producers = 0 ∨ consumers = 0 ∨ producers + consumers ≤ 2 * capacity) := by
  obtain ⟨ch, hinit, hlists⟩ := exists_init hcap
  have hholds : ch.Holds [] := ⟨[], _, hlists, rfl⟩
  have hcapacity : ch.capacity = capacity := by
    rw [← hlists.length_add, List.length_nil, List.length_range, Nat.zero_add]
  have hview := view_newSystem hholds.size.symm producers consumers
  rw [hcapacity] at hview
  refine ⟨ch, hinit, ?_⟩
  have hstuck := exists_stuck_iff (p := producers) (q := consumers) hcap
  constructor
  · intro hno
    by_contra hmany
    obtain ⟨b, hreaches, hb⟩ := hstuck.mpr (by omega)
    obtain ⟨actions, s, hrun, rfl⟩ := exists_run_of_reaches hreaches hholds hview
    exact hno actions s hrun (deadlocked_iff.mpr hb)
  · intro hfew actions s hrun hdead
    have hreaches := reaches_of_run hholds hrun
    rw [hview] at hreaches
    have hmany := hstuck.mp ⟨_, hreaches, deadlocked_iff.mp hdead⟩
    omega

theorem noLostWakeup_oneEach : ∃ ch, init 1 = some ch ∧ NoLostWakeup (newSystem ch 1 1) := by
  obtain ⟨ch, hinit, hiff⟩ := noLostWakeup_iff (Nat.le_refl 1) 1 1
  exact ⟨ch, hinit, hiff.mpr (by decide)⟩

/-- One node, two producers and a consumer. The consumer empties the channel and wakes the
one producer, which fills it again and wakes the other: all three are parked, and the
consumer in front of a full channel. -/
theorem channel_deadlock : ∃ ch s, init 1 = some ch ∧
    run step (newSystem ch 2 1) [.call 0 (.push 5) 0, .call 0 (.push 6) 0, .call 1 (.push 7) 0,
      .call 2 .pop 0, .call 2 .pop 0, .resume 0 1, .call 0 (.push 8) 0, .resume 1 0] = some s ∧
    Deadlocked s := by
  refine ⟨_, ⟨_, [.waiting (.push 8), .waiting (.push 7), .waiting .pop]⟩, rfl, rfl, ?_, Or.inr ?_⟩
  · simp
  · exact ⟨by simp, Nat.one_pos⟩

end Channel

end ConArtist
