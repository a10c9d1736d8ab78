import ConArtist.Job.Standing

/-!
# The load of a channel

The jobs of a channel that are still to be completed are those pending and those in
the hands of the workers. A worker's move keeps the sum of these and of the
completed ones, channel by channel; after a stop nothing adds to it. Each completed
job wakes one of the clients parked on the channel.
-/

namespace ConArtist

namespace Job

open Machine ConArtist.Job.Flow

/-- The worker holds a job of the channel. -/
def Worker.holds (channel : ℤ) (w : Worker) : Bool :=
  w.held.any fun held => held.1.channel = channel

/-- The client is parked in `pop_completed_wait` of the channel. -/
def Client.parkedOn (channel : ℤ) : Client → Bool
  | .waitingCompleted c _ => c = channel
  | _ => false

namespace JobManager

/-- The number of jobs of the channel that are pending or held by a worker. -/
def coming (m : JobManager) (channel : ℤ) : ℕ :=
  m.pending.items.countP (fun job => job.channel = channel) +
    m.workers.countP (Worker.holds channel)

/-- The number of completed jobs of the channel. -/
def stock (m : JobManager) (channel : ℤ) : ℕ :=
  (m.completedRing channel).elim 0 RingBuffer.count

/-- The completed capacity of the channel, `0` for one that is not initialised. -/
def capacity (m : JobManager) (channel : ℤ) : ℕ :=
  (m.completedRing channel).elim 0 RingBuffer.capacity

/-- The number of jobs of the channel that are not popped. -/
def load (m : JobManager) (channel : ℤ) : ℕ := m.coming channel + m.stock channel

/-- The number of clients parked on the channel. -/
def parked (m : JobManager) (channel : ℤ) : ℕ := m.clients.countP (Client.parkedOn channel)

variable {m m' : JobManager} {channel : ℤ}

theorem completedRing_set {n : JobManager} {c : ℕ} {ring ring' : Ring}
    (hring : m.completed[c]? = some ring) (hcompleted : n.completed = m.completed.set c ring')
    (channel : ℤ) : n.completedRing channel =
      if channel = c then some ring' else m.completedRing channel := by
  rw [completedRing, hcompleted, completedRing]
  split
  case isTrue hnonneg =>
    obtain ⟨c', rfl⟩ := Int.eq_ofNat_of_zero_le hnonneg
    rw [Int.toNat_natCast, List.getElem?_set]
    by_cases hc : c = c'
    · subst hc
      rw [if_pos rfl, if_pos (List.getElem?_eq_some_iff.mp hring).1, if_pos rfl]
    · rw [if_neg hc, if_neg (by exact_mod_cast Ne.symm hc)]
  case isFalse hneg => rw [if_neg (by omega)]

theorem coming_congr (hpending : m'.pending.items = m.pending.items)
    (hworkers : m'.workers.countP (Worker.holds channel) =
      m.workers.countP (Worker.holds channel)) : m'.coming channel = m.coming channel := by
  rw [coming, coming, hpending, hworkers]

theorem onHasCompleted_eq_some {p : ℤ → Bool} {t t' : Client}
    (h : onHasCompleted p t = some t') :
    ∃ c jobData1, p c = true ∧ t = .waitingCompleted c jobData1 ∧ t' = .woken c jobData1 := by
  cases t with
  | waitingCompleted c jobData1 =>
      rw [onHasCompleted] at h
      split at h
      · cases h
        exact ⟨c, jobData1, ‹_›, rfl, rfl⟩
      · cases h
  | _ => cases h

/-- A signal takes one client, if there is one, from those parked on its channel. -/
theorem countP_parkedOn_signal (channel : ℤ) {c : ℤ} {clients clients' : List Client} {wake : ℕ}
    (h : CondVar.signal (onHasCompleted (· = c)) clients wake = some clients') :
    clients'.countP (Client.parkedOn channel) =
      if channel = c then clients.countP (Client.parkedOn channel) - 1
      else clients.countP (Client.parkedOn channel) := by
  split
  case isTrue hc =>
    subst hc
    rcases CondVar.signal_cases h with ⟨rfl, hnone⟩ | ⟨t, t', ht, hwait, rfl⟩
    · have hzero : clients'.countP (Client.parkedOn channel) = 0 := by
        refine List.countP_eq_zero.mpr fun t ht hparked => ?_
        have hwait := hnone t ht
        cases t with
        | waitingCompleted c jobData1 =>
            have hc : decide (c = channel) = true := hparked
            rw [onHasCompleted, if_pos hc] at hwait
            cases hwait
        | _ => cases hparked
      rw [hzero]
    · obtain ⟨c, jobData1, hc, rfl, rfl⟩ := onHasCompleted_eq_some hwait
      have hloss := CondVar.countP_set_loss (p := Client.parkedOn channel) ht
        (.woken c jobData1) hc rfl
      omega
  case isFalse hne =>
    refine CondVar.countP_signal (fun t t' hwait => ?_) h
    obtain ⟨c', jobData1, hc, rfl, rfl⟩ := onHasCompleted_eq_some hwait
    rw [decide_eq_true_eq] at hc
    exact (decide_eq_false fun heq => hne (heq.symm.trans hc)).symm

/-- A worker's move changes nothing for a channel, or completes one of its jobs and
wakes one of its waiters. -/
theorem channel_workerMove {i : ℕ} (hmove : m.WorkerMove i m') (channel : ℤ) :
    (m'.coming channel = m.coming channel ∧ m'.completedRing channel = m.completedRing channel ∧
        m'.parked channel = m.parked channel) ∨
      (m'.coming channel + 1 = m.coming channel ∧
        m'.parked channel = m.parked channel - 1 ∧ ∃ ring ring' : Ring,
          m.completedRing channel = some ring ∧ m'.completedRing channel = some ring' ∧
            ring'.count = ring.count + 1 ∧ ring'.capacity = ring.capacity) := by
  cases hmove with
  | waits hworker hnone hrunning =>
      exact Or.inl ⟨coming_congr rfl (CondVar.countP_set_of_eq hworker rfl), rfl, rfl⟩
  | exits hworker hnone hstopping =>
      exact Or.inl ⟨coming_congr rfl (CondVar.countP_set_of_eq hworker rfl), rfl, rfl⟩
  | takes job pending hworker hpop =>
      refine Or.inl ⟨?_, rfl, rfl⟩
      have hadd := CondVar.countP_set_add (p := Worker.holds channel) hworker
        (.running { job with jobData1 := 0 })
      have hholds : Worker.holds channel (.running { job with jobData1 := 0 }) =
          decide (job.channel = channel) := rfl
      have hready : Worker.holds channel .ready = false := rfl
      rw [hholds, hready, if_neg Bool.false_ne_true, Nat.add_zero] at hadd
      rw [coming, coming, RingBuffer.items_of_pop hpop, List.countP_cons, hadd]
      dsimp only
      omega
  | runs job hworker =>
      exact Or.inl ⟨coming_congr rfl (CondVar.countP_set_of_eq hworker rfl), rfl, rfl⟩
  | blocks c job ring hworker hchannel hring hfull =>
      exact Or.inl ⟨coming_congr rfl (CondVar.countP_set_of_eq hworker rfl), rfl, rfl⟩
  | delivers c job ring ring' clients wake hworker hchannel hring hpush hsignal =>
      have hset := completedRing_set (n := { m with
        completed := m.completed.set c ring'
        clients := clients
        workers := m.workers.set i .ready }) hring rfl channel
      have hparked := countP_parkedOn_signal channel hsignal
      by_cases hc : channel = c
      · rw [if_pos hc] at hset hparked
        have hloss := CondVar.countP_set_loss (p := Worker.holds channel) hworker .ready
          (decide_eq_true (hchannel.trans hc.symm)) rfl
        refine Or.inr ⟨?_, hparked, ring, ring', completedRing_eq_some.mpr ⟨c, hc, hring⟩, hset,
          RingBuffer.count_of_push hpush, RingBuffer.capacity_of_push hpush⟩
        rw [coming, coming, ← hloss, Nat.add_assoc]
      · rw [if_neg hc] at hset hparked
        refine Or.inl ⟨coming_congr rfl ?_, hset, hparked⟩
        exact CondVar.countP_set_of_eq hworker
          (decide_eq_false fun heq => hc (heq.symm.trans hchannel)).symm

theorem load_workerMove {i : ℕ} (hmove : m.WorkerMove i m') (channel : ℤ) :
    m'.load channel = m.load channel ∧ m'.capacity channel = m.capacity channel := by
  rcases channel_workerMove hmove channel with
    ⟨hcoming, hring, -⟩ | ⟨hcoming, -, ring, ring', hring, hring', hcount, hcapacity⟩
  · rw [load, load, stock, stock, capacity, capacity, hcoming, hring]
    exact ⟨rfl, rfl⟩
  · rw [load, load, stock, stock, capacity, capacity, hring, hring', ← hcoming]
    exact ⟨by rw [Option.elim_some, Option.elim_some, hcount]; omega, hcapacity⟩

theorem stopping_workerMove {i : ℕ} (hmove : m.WorkerMove i m') : m'.stopping = m.stopping := by
  cases hmove <;> rfl

theorem stopping_transition (hstop : m.stopping = true) (ht : Transition m m') :
    m'.stopping = true := by
  cases ht with
  | client hmove =>
      cases hmove with
      | stopped k drain hrunning hclient =>
          rw [stop, if_neg (by rw [hrunning]; exact Bool.false_ne_true)]
      | _ => exact hstop
  | worker i hmove => exact (stopping_workerMove hmove).trans hstop

theorem completedRing_append {n : JobManager} {ring : Ring}
    (hcompleted : n.completed = m.completed ++ [ring]) (channel : ℤ) : n.completedRing channel =
      if channel = m.completed.length then some ring else m.completedRing channel := by
  rw [completedRing, hcompleted, completedRing]
  split
  case isTrue hnonneg =>
    obtain ⟨c, rfl⟩ := Int.eq_ofNat_of_zero_le hnonneg
    rw [Int.toNat_natCast, List.getElem?_append]
    rcases Nat.lt_trichotomy c m.completed.length with hlt | heq | hgt
    · rw [if_pos hlt, if_neg (by omega)]
    · rw [if_neg (by omega), if_pos (by omega), heq, Nat.sub_self]
      rfl
    · rw [if_neg (by omega), if_neg (by omega), List.getElem?_eq_none (by simp; omega),
        List.getElem?_eq_none (by omega)]
  case isFalse hneg => rw [if_neg (by omega)]

theorem completedRing_length : m.completedRing m.completed.length = none := by
  rw [completedRing, if_pos (Int.natCast_nonneg _), Int.toNat_natCast]
  exact List.getElem?_eq_none le_rfl

theorem coming_popped {p : ℤ → Bool} {wake : ℕ} {workers : List Worker}
    (hsignal : CondVar.signal (onRoomCompleted p) m.workers wake = some workers)
    (completed : List Ring) (pops : List (ℤ × JobRecord)) (channel : ℤ) :
    coming { m with completed := completed, workers := workers, pops := pops } channel =
      m.coming channel := by
  refine coming_congr rfl (CondVar.countP_signal (fun t t' hwait => ?_) hsignal)
  rw [Worker.holds, Worker.holds, held_onRoomCompleted p t t' hwait]

/-- After a stop no transition adds to the load of a channel, nor takes from its
capacity. -/
theorem load_transition (hstop : m.stopping = true) (ht : Transition m m') (channel : ℤ) :
    m'.load channel ≤ m.load channel ∧ m.capacity channel ≤ m'.capacity channel := by
  cases ht with
  | client hmove =>
      cases hmove with
      | opened cap hcap hchannels =>
          have hring := completedRing_append (m := m) (n := { m with
            completed := m.completed ++ [Ring.init cap hcap] }) rfl channel
          rw [load, load, stock, stock, capacity, capacity, hring]
          split
          case isTrue hnew =>
            rw [hnew, completedRing_length]
            exact ⟨le_rfl, Nat.zero_le _⟩
          case isFalse => exact ⟨le_rfl, le_rfl⟩
      | accepted job pending workers wake hrunning hfn hdata0 hticket hpush hsignal =>
          exact absurd (hrunning.symm.trans hstop) Bool.false_ne_true
      | popped c jobData1 ring ring' job workers wake hring hpop hsignal =>
          have hset := completedRing_set (n := { m with
            completed := m.completed.set c ring'
            workers := workers
            pops := m.pops ++ [((c : ℤ), { job with jobData1 := jobData1 })] }) hring rfl channel
          rw [load, load, stock, stock, capacity, capacity, coming_popped hsignal, hset]
          split
          case isTrue hc =>
            have hcount := RingBuffer.count_of_pop hpop
            rw [completedRing_eq_some.mpr ⟨c, hc, hring⟩]
            exact ⟨Nat.add_le_add_left (by rw [Option.elim_some, Option.elim_some]; omega) _,
              (RingBuffer.capacity_of_pop hpop).ge⟩
          case isFalse => exact ⟨le_rfl, le_rfl⟩
      | returned k client hclient hawake => exact ⟨le_rfl, le_rfl⟩
      | stopped k drain hrunning hclient =>
          exact absurd (hrunning.symm.trans hstop) Bool.false_ne_true
  | worker i hmove =>
      obtain ⟨hload, hcapacity⟩ := load_workerMove hmove channel
      exact ⟨hload.le, hcapacity.ge⟩

theorem coming_of_exited (hs : Sound m) (hexited : ∀ w ∈ m.workers, w = .exited) (channel : ℤ) :
    m.stopping = true ∧ m.coming channel = 0 := by
  obtain ⟨w, hw⟩ := List.exists_mem_of_ne_nil _ hs.workers
  obtain ⟨hstop, hnone⟩ := hs.standing.exited (hexited w hw ▸ hw)
  have hitems : m.pending.items = [] := by
    rwa [← List.length_eq_zero_iff, RingBuffer.length_items]
  have hheld : m.workers.countP (Worker.holds channel) = 0 :=
    List.countP_eq_zero.mpr fun w hw => by rw [hexited w hw]; exact Bool.false_ne_true
  rw [coming, hitems, hheld, List.countP_nil]
  exact ⟨hstop, rfl⟩

section Waiters

theorem parked_stop {k : ℕ} {drain : Bool} (hrunning : m.stopping = false) {channel : ℤ}
    (hinit : 0 < m.parked channel → m.initialised channel = true) :
    (m.stop k drain).parked channel = 0 := by
  rw [parked, stop, if_neg (by rw [hrunning]; exact Bool.false_ne_true)]
  refine List.countP_eq_zero.mpr fun client hclient hparked => ?_
  rcases List.mem_or_eq_of_mem_set hclient with hmem | rfl
  · obtain ⟨t, ht, hwait | ⟨hwait, rfl⟩⟩ := CondVar.mem_broadcast hmem
    · obtain ⟨c, jobData1, -, -, rfl⟩ := onHasCompleted_eq_some hwait
      cases hparked
    · cases client with
      | waitingCompleted c jobData1 =>
          have hc : c = channel := of_decide_eq_true hparked
          have hinit' := hinit (List.countP_pos_iff.mpr ⟨_, ht, hparked⟩)
          rw [initialised] at hinit'
          rw [onHasCompleted, hc, if_pos hinit'] at hwait
          cases hwait
      | _ => cases hparked
  · cases hparked

theorem parked_workerMove_le {i : ℕ} (hmove : m.WorkerMove i m') (channel : ℤ) :
    m'.parked channel ≤ m.parked channel := by
  rcases channel_workerMove hmove channel with ⟨-, -, hparked⟩ | ⟨-, hparked, -⟩
  · exact hparked.le
  · exact hparked.le.trans (Nat.sub_le _ _)

theorem parked_returned {k : ℕ} {client : Client} (hclient : m.clients[k]? = some client)
    (hawake : client.awake) (channel : ℤ) :
    (m.clients.set k .idle).countP (Client.parkedOn channel) = m.parked channel := by
  refine CondVar.countP_set_of_eq hclient ?_
  cases client <;> first | rfl | cases hawake

def WaitersInitialised (m : JobManager) : Prop :=
  ∀ channel, 0 < m.parked channel → m.initialised channel = true

theorem initialised_of_length (h : m.completed.length ≤ m'.completed.length) {channel : ℤ}
    (hinit : m.initialised channel = true) : m'.initialised channel = true := by
  rw [initialised, decide_eq_true_eq] at hinit ⊢
  omega

theorem length_completed_transition (ht : Transition m m') :
    m.completed.length ≤ m'.completed.length := by
  cases ht with
  | client hmove =>
      cases hmove with
      | opened cap hcap hchannels =>
          rw [List.length_append]
          exact Nat.le_add_right _ _
      | popped => exact List.length_set.ge
      | stopped k drain hrunning hclient =>
          rw [stop, if_neg (by rw [hrunning]; exact Bool.false_ne_true)]
      | _ => exact le_rfl
  | worker i hmove =>
      cases hmove with
      | delivers => exact List.length_set.ge
      | _ => exact le_rfl

theorem WaitersInitialised.transition (h : m.WaitersInitialised) (ht : Transition m m') :
    m'.WaitersInitialised := by
  have hlength := length_completed_transition ht
  intro channel hpos
  refine initialised_of_length hlength (h channel ?_)
  cases ht with
  | client hmove =>
      cases hmove with
      | returned k client hclient hawake => rwa [← parked_returned hclient hawake]
      | stopped k drain hrunning hclient =>
          exact absurd (parked_stop hrunning (h channel)) hpos.ne'
      | _ => exact hpos
  | worker i hmove => exact hpos.trans_le (parked_workerMove_le hmove channel)

theorem parked_park {call : WaitCall} {client : Client}
    (hclient : m.clients[call.client]? = some client) (hawake : client.awake) (channel : ℤ) :
    (m.park call).parked channel =
      m.parked channel + if call.channel = channel then 1 else 0 := by
  have hfree : client.parkedOn channel = false := by
    cases client <;> first | rfl | cases hawake
  have hadd := CondVar.countP_set_add (p := Client.parkedOn channel) hclient
    (.waitingCompleted call.channel call.jobData1)
  have hon : Client.parkedOn channel (.waitingCompleted call.channel call.jobData1) =
      decide (call.channel = channel) := rfl
  rw [hfree, if_neg Bool.false_ne_true, Nat.add_zero, hon] at hadd
  simp only [decide_eq_true_eq] at hadd
  exact hadd

theorem WaitersInitialised.step {a : Action} (hrec : m.flow.Recorded)
    (h : m.WaitersInitialised) (hstep : Job.step m a = some m') : m'.WaitersInitialised := by
  rcases step_cases hrec hstep with ⟨call, c, ring, hcall, hpark, rfl⟩ | hsteps
  · obtain ⟨-, client, hclient, hawake⟩ := waitCall_spec hcall
    intro channel hpos
    rw [parked_park hclient hawake] at hpos
    by_cases hchannel : call.channel = channel
    · exact hchannel ▸ initialised_of_ring hpark.channel hpark.initialised
    · rw [if_neg hchannel] at hpos
      exact h channel hpos
  · clear hstep
    induction hsteps with
    | refl => exact h
    | tail _ hlast ih => exact ih.transition hlast

end Waiters

end JobManager

theorem waitersInitialised_newManager (maxChannels : ℕ) (nThreads pendingCapacity : ℤ)
    (nClients : ℕ) :
    (newManager maxChannels nThreads pendingCapacity nClients).WaitersInitialised := by
  intro channel hpos
  obtain ⟨client, hclient, hparked⟩ := List.countP_pos_iff.mp hpos
  rw [List.eq_of_mem_replicate hclient] at hparked
  cases hparked

end Job

end ConArtist
