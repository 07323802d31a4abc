import OpenDB.Library.ThreadPool

/-!
# The dispatcher and its shutdown

Clients hand sessions to a queue, workers take them out and run them, and a shutdown stops both. Every
step is one access to what they share: the two flags, the queue under its mutex, and the semaphore. The
steps of all of them interleave freely.

A worker looks at the flag before it waits and again before it takes a session, so a worker that finds
it down leaves the queue as it is. What is in the queue when the flag goes down is run only as far as
there are workers past their second look, and a client past its checks still pushes. So a shutdown loses
a session if and only if one is left over when it takes the flag down (`shutdown_graceful`).
-/

set_option autoImplicit false

namespace OpenDB

open OpenDB.Library

namespace EngineDispatcher

/-! ## Threads -/

/-- Where a call of `enqueue` is, by its session. -/
inductive ClientPhase where
  | idle
  /-- `running_` was up. -/
  | checked
  /-- `shuttingDown_` was down too. -/
  | admitted
  | pushed
  | returned
  /-- The session has been told. -/
  | rejected
  deriving DecidableEq

/-- Where a worker is in `workerLoop`. -/
inductive WorkerPhase where
  | head
  | waiting
  /-- It has a permit. -/
  | woken
  /-- `running_` was still up. -/
  | cleared
  | busy (session : Nat)
  | exited
  deriving DecidableEq

/-- Where the shutdown is. -/
inductive ShutdownPhase where
  | idle
  /-- `shuttingDown_` is up. -/
  | announced
  /-- `running_` is down, and so many permits are still to be released. -/
  | releasing (permits : Nat)
  deriving DecidableEq

structure State (n : Nat) where
  running : Bool
  shuttingDown : Bool
  /-- The counter of `queueSem_`. -/
  permits : Nat
  queue : List Nat
  clients : Nat → ClientPhase
  workers : Fin n → WorkerPhase
  shutdown : ShutdownPhase
  /-- How often a session has been run to its end. -/
  runs : Nat → Nat

/-- Who goes on. -/
inductive Turn (n : Nat) where
  | client (session : Nat)
  | worker (i : Fin n)
  | shutdown
  deriving DecidableEq

variable {n : Nat}

namespace State

/-- The constructor starts at least one worker. -/
def poolSize (workerCount : Nat) : Nat := if workerCount = 0 then 1 else workerCount

theorem poolSize_pos (workerCount : Nat) : 0 < poolSize workerCount := by
  rw [poolSize]
  split_ifs with hzero
  · exact Nat.one_pos
  · exact Nat.pos_of_ne_zero hzero

/-- Behind the constructor: the workers have started. -/
def new (n : Nat) : State n where
  running := true
  shuttingDown := false
  permits := 0
  queue := []
  clients := fun _ => .idle
  workers := fun _ => .head
  shutdown := .idle
  runs := fun _ => 0

def setClient (s : State n) (c : Nat) (p : ClientPhase) : State n :=
  { s with clients := Function.update s.clients c p }

def setWorker (s : State n) (i : Fin n) (p : WorkerPhase) : State n :=
  { s with workers := Function.update s.workers i p }

/-! ## Steps -/

/-- `enqueue`. -/
def client (s : State n) (c : Nat) : Option (State n) :=
  match s.clients c with
  | .idle => some (s.setClient c (if s.running then .checked else .rejected))
  -- the second operand of the check; the flags may change in between
  | .checked => some (s.setClient c (if s.shuttingDown then .rejected else .admitted))
  | .admitted => some { s.setClient c .pushed with queue := s.queue ++ [c] }
  | .pushed => some { s.setClient c .returned with permits := s.permits + 1 }
  | .returned | .rejected => none

/-- `workerLoop`. A worker that waits goes on when there is a permit. -/
def worker (s : State n) (i : Fin n) : Option (State n) :=
  match s.workers i with
  | .head => some (s.setWorker i (if s.running then .waiting else .exited))
  | .waiting =>
    match s.permits with
    | 0 => none
    | permits + 1 => some { s.setWorker i .woken with permits := permits }
  | .woken => some (s.setWorker i (if s.running then .cleared else .exited))
  | .cleared =>
    match s.queue with
    | [] => some (s.setWorker i .head)
    | c :: queue => some { s.setWorker i (.busy c) with queue := queue }
  | .busy c => some { s.setWorker i .head with runs := Function.update s.runs c (s.runs c + 1) }
  | .exited => none

/-- `shutdown`: the exchange, the store, and a permit for each worker. -/
def shutDown (s : State n) : Option (State n) :=
  match s.shutdown with
  | .idle => some { s with shuttingDown := true, shutdown := .announced }
  -- from here on workers find the flag down
  | .announced => some { s with running := false, shutdown := .releasing n }
  | .releasing 0 => none
  | .releasing (k + 1) => some { s with permits := s.permits + 1, shutdown := .releasing k }

def next (s : State n) : Turn n → Option (State n)
  | .client c => s.client c
  | .worker i => s.worker i
  | .shutdown => s.shutDown

/-! ## What a shutdown promises -/

def AllExited (s : State n) : Prop := ∀ i, s.workers i = .exited

instance (s : State n) : Decidable s.AllExited := inferInstanceAs (Decidable (∀ _, _ = _))

/-- Nothing is left in the queue, every session that was taken has been run exactly once, and every other
one has been told. -/
structure Graceful (s : State n) : Prop where
  empty : s.queue = []
  once : ∀ c, s.clients c = .pushed ∨ s.clients c = .returned → s.runs c = 1
  never : ∀ c, s.clients c = .rejected → s.runs c = 0

/-- A worker that will look into the queue. -/
def isCleared : WorkerPhase → Nat
  | .cleared => 1
  | _ => 0

/-- No client is between its checks and its push, and there are workers for all that is queued. -/
structure Drained (s : State n) : Prop where
  admitted : ∀ c, s.clients c ≠ .admitted
  covered : s.queue.length ≤ total isCleared s.workers

/-- The step that takes `running_` down. -/
def Stops (s : State n) (turn : Turn n) : Prop := turn = .shutdown ∧ s.shutdown = .announced

instance (s : State n) (turn : Turn n) : Decidable (s.Stops turn) := inferInstanceAs (Decidable (_ ∧ _))

/-! ## What the steps keep -/

/-- A worker has the session. -/
def isBusy (c : Nat) (p : WorkerPhase) : Nat := if p = .busy c then 1 else 0

/-- The flags follow the shutdown, no worker goes before, and a session is in one place. -/
structure Sound (s : State n) : Prop where
  announced : s.shuttingDown = true ↔ s.shutdown ≠ .idle
  stopped : s.running = false ↔ ∃ k, s.shutdown = .releasing k
  exited : ∀ i, s.workers i = .exited → s.running = false
  once : ∀ c, s.queue.count c + total (isBusy c) s.workers + s.runs c =
    if s.clients c = .pushed ∨ s.clients c = .returned then 1 else 0

theorem sound_new : (new n).Sound where
  announced := by simp [new]
  stopped := by simp [new]
  exited := fun i h => by cases h
  once := fun c => by
    have hbusy : total (isBusy c) (new n).workers = 0 := total_eq_zero fun i => by simp [new, isBusy]
    rw [hbusy]
    simp [new]

namespace Sound

variable {s t : State n} {c : Nat} {i : Fin n}

/-- A session that is not taken yet, or is taken already, stays so. -/
theorem setClient {p : ClientPhase} (hs : s.Sound)
    (hp : (s.clients c = .pushed ∨ s.clients c = .returned) ↔ (p = .pushed ∨ p = .returned)) :
    (s.setClient c p).Sound where
  announced := hs.announced
  stopped := hs.stopped
  exited := hs.exited
  once := fun c' => by
    have honce := hs.once c'
    by_cases hc : c' = c
    · subst hc
      simp only [State.setClient, Function.update_self, ← hp]
      exact honce
    · simp only [State.setClient, Function.update_of_ne hc]
      exact honce

/-- A worker may move a session from the queue to itself, or from itself to the runs. -/
theorem moveWorker {p : WorkerPhase} (hs : s.Sound) (queue : List Nat) (runs : Nat → Nat)
    (hmove : ∀ c, queue.count c + isBusy c p + runs c =
      s.queue.count c + isBusy c (s.workers i) + s.runs c)
    (hexit : p = .exited → s.running = false) :
    { s.setWorker i p with queue := queue, runs := runs }.Sound where
  announced := hs.announced
  stopped := hs.stopped
  exited := fun j hj => by
    by_cases hji : j = i
    · subst hji
      simp only [State.setWorker, Function.update_self] at hj
      exact hexit hj
    · simp only [State.setWorker, Function.update_of_ne hji] at hj
      exact hs.exited j hj
  once := fun c => by
    have honce := hs.once c
    -- what the worker gains the queue or the runs have lost
    have htotal := total_update (isBusy c) s.workers i p
    have hsame := hmove c
    refine Eq.trans ?_ honce
    simp only [State.setWorker]
    omega

theorem setWorker {p : WorkerPhase} (hs : s.Sound) (hbefore : ∀ c, isBusy c (s.workers i) = 0)
    (hbehind : ∀ c, isBusy c p = 0) (hexit : p = .exited → s.running = false) :
    (s.setWorker i p).Sound :=
  hs.moveWorker s.queue s.runs (fun c => by rw [hbefore, hbehind]) hexit

/-- A change of the permits. -/
theorem setPermits (hs : s.Sound) (permits : Nat) : { s with permits := permits }.Sound where
  announced := hs.announced
  stopped := hs.stopped
  exited := hs.exited
  once := hs.once

theorem client (hs : s.Sound) (h : s.client c = some t) : t.Sound := by
  rw [State.client] at h
  cases hphase : s.clients c with
  | idle =>
    rw [hphase] at h
    cases h
    refine hs.setClient ?_
    rw [hphase]
    split_ifs <;> simp
  | checked =>
    rw [hphase] at h
    cases h
    refine hs.setClient ?_
    rw [hphase]
    split_ifs <;> simp
  | admitted =>
    rw [hphase] at h
    cases h
    refine ⟨hs.announced, hs.stopped, hs.exited, fun c' => ?_⟩
    have honce := hs.once c'
    -- only the session that is pushed is in the queue once more
    by_cases hc : c' = c
    · subst hc
      simp only [State.setClient, Function.update_self, List.count_append, List.count_singleton_self]
      simp [hphase] at honce
      simp
      omega
    · have hcount : [c].count c' = 0 := by simp [Ne.symm hc]
      simp only [State.setClient, Function.update_of_ne hc, List.count_append, hcount]
      exact honce
  | pushed =>
    rw [hphase] at h
    cases h
    refine (hs.setClient (p := .returned) ?_).setPermits _
    simp [hphase]
  | returned =>
    rw [hphase] at h
    cases h
  | rejected =>
    rw [hphase] at h
    cases h

theorem worker (hs : s.Sound) (h : s.worker i = some t) : t.Sound := by
  rw [State.worker] at h
  cases hphase : s.workers i with
  | head =>
    rw [hphase] at h
    cases h
    refine hs.setWorker (by simp [hphase, isBusy]) ?_ ?_
    · split_ifs <;> simp [isBusy]
    · split_ifs with hrun <;> simp [hrun]
  | waiting =>
    rw [hphase] at h
    cases hpermits : s.permits with
    | zero =>
      rw [hpermits] at h
      cases h
    | succ permits =>
      rw [hpermits] at h
      cases h
      exact (hs.setWorker (by simp [hphase, isBusy]) (by simp [isBusy]) (by simp)).setPermits _
  | woken =>
    rw [hphase] at h
    cases h
    refine hs.setWorker (by simp [hphase, isBusy]) ?_ ?_
    · split_ifs <;> simp [isBusy]
    · split_ifs with hrun <;> simp [hrun]
  | cleared =>
    rw [hphase] at h
    cases hqueue : s.queue with
    | nil =>
      rw [hqueue] at h
      cases h
      exact hs.setWorker (by simp [hphase, isBusy]) (by simp [isBusy]) (by simp)
    | cons c queue =>
      rw [hqueue] at h
      cases h
      refine hs.moveWorker queue s.runs (fun c' => ?_) (by simp)
      rw [hphase, hqueue, List.count_cons]
      -- the first session of the queue goes to the worker
      by_cases hc : c = c' <;> simp [isBusy, hc]
  | busy c =>
    rw [hphase] at h
    cases h
    refine hs.moveWorker s.queue _ (fun c' => ?_) (by simp)
    rw [hphase]
    by_cases hc : c' = c
    · subst hc
      -- the worker's session is counted among the runs now
      simp [isBusy]
      omega
    · simp [isBusy, hc, Ne.symm hc]
  | exited =>
    rw [hphase] at h
    cases h

theorem shutDown (hs : s.Sound) (h : s.shutDown = some t) : t.Sound := by
  rw [State.shutDown] at h
  cases hphase : s.shutdown with
  | idle =>
    rw [hphase] at h
    cases h
    refine ⟨by simp, ?_, hs.exited, hs.once⟩
    have hstopped := hs.stopped
    simp only [hphase, reduceCtorEq, exists_false, iff_false] at hstopped
    simp [hstopped]
  | announced =>
    rw [hphase] at h
    cases h
    refine ⟨?_, by simp, fun _ _ => rfl, hs.once⟩
    have hannounced := hs.announced
    simpa [hphase] using hannounced
  | releasing k =>
    rw [hphase] at h
    cases k with
    | zero => cases h
    | succ k =>
      cases h
      refine ⟨?_, ?_, hs.exited, hs.once⟩
      · have hannounced := hs.announced
        simpa [hphase] using hannounced
      · have hstopped := hs.stopped
        simpa [hphase] using hstopped

theorem next {turn : Turn n} (hs : s.Sound) (h : s.next turn = some t) : t.Sound := by
  cases turn with
  | client c => exact hs.client h
  | worker i => exact hs.worker h
  | shutdown => exact hs.shutDown h

theorem of_run {trace : List (State n × Turn n)} (h : Run State.next (State.new n) trace s) :
    s.Sound :=
  h.invariant sound_new fun _ _ _ hs hstep => hs.next hstep

end Sound

/-! ## Workers that find the flag down -/

def isWaiting : WorkerPhase → Nat
  | .waiting => 1
  | _ => 0

/-- The steps that a worker may still have to make. -/
def stepsLeft : WorkerPhase → Nat
  | .exited => 0
  | .head | .woken => 1
  | .waiting | .busy _ => 2
  | .cleared => 3

variable {s t : State n} {i : Fin n} {c : Nat}

/-- What a worker's step can do when the flag is down. It takes a session from the queue only when it was
past its second look, and it takes a permit only when it was waiting. -/
structure WindsDown (s t : State n) : Prop where
  running : t.running = false
  shuttingDown : t.shuttingDown = s.shuttingDown
  shutdown : t.shutdown = s.shutdown
  clients : t.clients = s.clients
  closer : total stepsLeft t.workers < total stepsLeft s.workers
  permits : total isWaiting t.workers + s.permits ≤ total isWaiting s.workers + t.permits
  left : s.queue.length + total isCleared t.workers ≤ t.queue.length + total isCleared s.workers
  taken : t.queue = [] ∨
    t.queue.length + total isCleared s.workers = s.queue.length + total isCleared t.workers

theorem windsDown_worker (hstop : s.running = false) (h : s.worker i = some t) : WindsDown s t := by
  have hsteps := total_update stepsLeft s.workers i
  have hwaiting := total_update isWaiting s.workers i
  have hcleared := total_update isCleared s.workers i
  rw [State.worker] at h
  cases hphase : s.workers i with
  | head =>
    rw [hphase] at h hsteps hwaiting hcleared
    cases h
    have hsteps := hsteps .exited
    have hwaiting := hwaiting .exited
    have hcleared := hcleared .exited
    simp only [stepsLeft, isWaiting, isCleared] at hsteps hwaiting hcleared
    refine ⟨hstop, rfl, rfl, rfl, ?_, ?_, ?_, .inr ?_⟩ <;>
      · simp only [setWorker, hstop, Bool.false_eq_true, if_false]
        omega
  | waiting =>
    rw [hphase] at h hsteps hwaiting hcleared
    cases hpermits : s.permits with
    | zero =>
      rw [hpermits] at h
      cases h
    | succ permits =>
      rw [hpermits] at h
      cases h
      have hsteps := hsteps .woken
      have hwaiting := hwaiting .woken
      have hcleared := hcleared .woken
      simp only [stepsLeft, isWaiting, isCleared] at hsteps hwaiting hcleared
      refine ⟨hstop, rfl, rfl, rfl, ?_, ?_, ?_, .inr ?_⟩ <;>
        · simp only [setWorker]
          omega
  | woken =>
    rw [hphase] at h hsteps hwaiting hcleared
    cases h
    -- it finds the flag down
    have hsteps := hsteps .exited
    have hwaiting := hwaiting .exited
    have hcleared := hcleared .exited
    simp only [stepsLeft, isWaiting, isCleared] at hsteps hwaiting hcleared
    refine ⟨hstop, rfl, rfl, rfl, ?_, ?_, ?_, .inr ?_⟩ <;>
      · simp only [setWorker, hstop, Bool.false_eq_true, if_false]
        omega
  | cleared =>
    rw [hphase] at h hsteps hwaiting hcleared
    cases hqueue : s.queue with
    | nil =>
      rw [hqueue] at h
      cases h
      have hsteps := hsteps .head
      have hwaiting := hwaiting .head
      have hcleared := hcleared .head
      simp only [stepsLeft, isWaiting, isCleared] at hsteps hwaiting hcleared
      -- past its second look it finds nothing left
      refine ⟨hstop, rfl, rfl, rfl, ?_, ?_, ?_, .inl ?_⟩
      · simp only [setWorker]
        omega
      · simp only [setWorker]
        omega
      · simp only [setWorker]
        omega
      · simpa only [setWorker] using hqueue
    | cons c queue =>
      rw [hqueue] at h
      cases h
      have hsteps := hsteps (.busy c)
      have hwaiting := hwaiting (.busy c)
      have hcleared := hcleared (.busy c)
      simp only [stepsLeft, isWaiting, isCleared] at hsteps hwaiting hcleared
      refine ⟨hstop, rfl, rfl, rfl, ?_, ?_, ?_, .inr ?_⟩ <;>
        · simp only [setWorker, hqueue, List.length_cons]
          omega
  | busy c =>
    rw [hphase] at h hsteps hwaiting hcleared
    cases h
    have hsteps := hsteps .head
    have hwaiting := hwaiting .head
    have hcleared := hcleared .head
    simp only [stepsLeft, isWaiting, isCleared] at hsteps hwaiting hcleared
    refine ⟨hstop, rfl, rfl, rfl, ?_, ?_, ?_, .inr ?_⟩ <;>
      · simp only [setWorker]
        omega
  | exited =>
    rw [hphase] at h
    cases h

theorem worker_eq_none (h : s.worker i = none) :
    s.workers i = .exited ∨ s.workers i = .waiting ∧ s.permits = 0 := by
  rw [State.worker] at h
  cases hphase : s.workers i with
  | waiting =>
    cases hpermits : s.permits with
    | zero => exact .inr ⟨rfl, rfl⟩
    | succ permits => simp [hphase, hpermits] at h
  | cleared => cases hqueue : s.queue <;> simp [hphase, hqueue] at h
  | exited => exact .inl rfl
  | head => simp [hphase] at h
  | woken => simp [hphase] at h
  | busy c => simp [hphase] at h

theorem total_isCleared_of_allExited (hexited : s.AllExited) : total isCleared s.workers = 0 :=
  total_eq_zero fun i => by rw [hexited i]; rfl

/-! ## A shutdown that loses nothing -/

theorem running_next {turn : Turn n} (h : s.next turn = some t) (hturn : ¬ s.Stops turn) :
    t.running = s.running := by
  cases turn with
  | client c =>
    simp only [next, client] at h
    split at h <;> cases h <;> rfl
  | worker i =>
    simp only [next, worker] at h
    split at h
    · cases h; rfl
    · split at h <;> cases h; rfl
    · cases h; rfl
    · split at h <;> cases h <;> rfl
    · cases h; rfl
    · cases h
  | shutdown =>
    simp only [next, shutDown] at h
    split at h
    · cases h; rfl
    · rename_i hphase
      exact absurd ⟨rfl, hphase⟩ hturn
    · cases h
    · cases h; rfl

namespace Drained

theorem setClient {p : ClientPhase} (hdrained : s.Drained) (hp : p ≠ .admitted) :
    (s.setClient c p).Drained where
  admitted := fun c' => by
    by_cases hc : c' = c
    · subst hc
      simpa only [State.setClient, Function.update_self] using hp
    · simpa only [State.setClient, Function.update_of_ne hc] using hdrained.admitted c'
  covered := hdrained.covered

/-- Only the client that pushes would lengthen the queue, and no client gets there any more. -/
theorem client (hs : s.Sound) (hstop : s.running = false) (hdrained : s.Drained)
    (h : s.client c = some t) : t.Drained := by
  obtain ⟨k, hk⟩ := hs.stopped.1 hstop
  have hshutting : s.shuttingDown = true := hs.announced.2 (by simp [hk])
  rw [State.client] at h
  cases hphase : s.clients c with
  | idle =>
    simp only [hphase, hstop] at h
    cases h
    exact hdrained.setClient (by simp)
  | checked =>
    simp only [hphase, hshutting] at h
    cases h
    exact hdrained.setClient (by simp)
  | admitted => exact absurd hphase (hdrained.admitted c)
  | pushed =>
    rw [hphase] at h
    cases h
    have hnext := hdrained.setClient (c := c) (p := .returned) (by simp)
    exact ⟨hnext.admitted, hnext.covered⟩
  | returned =>
    rw [hphase] at h
    cases h
  | rejected =>
    rw [hphase] at h
    cases h

/-- A worker past its second look takes a session along. -/
theorem worker (hstop : s.running = false) (hdrained : s.Drained) (h : s.worker i = some t) :
    t.Drained := by
  have hstep := windsDown_worker hstop h
  have hcovered := hdrained.covered
  refine ⟨fun c => ?_, ?_⟩
  · rw [hstep.clients]
    exact hdrained.admitted c
  · -- an empty queue is covered by any number of workers
    rcases hstep.taken with hempty | htaken
    · simp [hempty]
    · omega

theorem shutDown (hdrained : s.Drained) (h : s.shutDown = some t) : t.Drained := by
  rw [State.shutDown] at h
  split at h <;> cases h <;> exact ⟨hdrained.admitted, hdrained.covered⟩

theorem next {turn : Turn n} (hs : s.Sound) (hstop : s.running = false) (hdrained : s.Drained)
    (h : s.next turn = some t) : t.Drained := by
  cases turn with
  | client c => exact hdrained.client hs hstop h
  | worker i => exact hdrained.worker hstop h
  | shutdown => exact hdrained.shutDown h

theorem graceful (hs : s.Sound) (hdrained : s.Drained) (hexited : s.AllExited) : s.Graceful := by
  have hcovered := hdrained.covered
  rw [total_isCleared_of_allExited hexited] at hcovered
  -- all workers have exited, so none is past its second look
  have hempty : s.queue = [] := List.length_eq_zero_iff.1 (Nat.le_zero.1 hcovered)
  have hbusy : ∀ c, total (isBusy c) s.workers = 0 := fun c =>
    total_eq_zero fun i => by simp [hexited i, isBusy]
  refine ⟨hempty, fun c hc => ?_, fun c hc => ?_⟩
  · have honce := hs.once c
    rw [if_pos hc] at honce
    simpa [hempty, hbusy] using honce
  · have honce := hs.once c
    simp [hc] at honce
    -- a rejected session is in no place at all
    exact honce.2

end Drained

/-- Every state behind a shutdown that leaves nothing over is drained. -/
theorem drained_of_run {trace : List (State n × Turn n)} (h : Run next (new n) trace s)
    (hstops : ∀ p ∈ trace, p.1.Stops p.2 → p.1.Drained) (hstop : s.running = false) :
    s.Drained := by
  refine (h.invariant_of_forall (P := fun s => s.Sound ∧ (s.running = false → s.Drained))
    (B := fun s turn => s.Stops turn ∧ ¬ s.Drained) ⟨sound_new, fun hdown => by cases hdown⟩
    (fun s turn t hs hstep hturn => ⟨hs.1.next hstep, fun hdown => ?_⟩)
    fun p hp hbad => hbad.2 (hstops p hp hbad.1)).2 hstop
  by_cases hstops : s.Stops turn
  · have hdrained : s.Drained := not_not.1 fun hnot => hturn ⟨hstops, hnot⟩
    obtain ⟨rfl, -⟩ := hstops
    exact hdrained.shutDown hstep
  · rw [running_next hstep hstops] at hdown
    exact (hs.2 hdown).next hs.1 hdown hstep

/-! ## A shutdown that loses a session -/

def releasesLeft : ShutdownPhase → Nat
  | .idle | .announced => 0
  | .releasing k => k

/-- The flag is down, there will be a permit for everyone who waits, and a session is left over. -/
structure LeftOver (s : State n) : Prop where
  running : s.running = false
  permits : total isWaiting s.workers ≤ s.permits + releasesLeft s.shutdown
  left : (∃ c, s.clients c = .admitted) ∨ total isCleared s.workers < s.queue.length

namespace LeftOver

/-- Someone can go on until all have exited. -/
theorem step (hs : s.LeftOver) (hnot : ¬ s.AllExited) :
    ∃ turn t, s.next turn = some t ∧ t.LeftOver ∧
      total stepsLeft t.workers + releasesLeft t.shutdown <
        total stepsLeft s.workers + releasesLeft s.shutdown := by
  -- a worker that has not exited: it goes on, or it waits for a permit
  obtain ⟨i, hi⟩ := not_forall.1 hnot
  have hpermits := hs.permits
  cases hstep : s.worker i with
  | some t =>
    have hwinds := windsDown_worker hs.running hstep
    have hcloser := hwinds.closer
    have hwaiting := hwinds.permits
    have hleft := hwinds.left
    refine ⟨.worker i, t, hstep, ⟨hwinds.running, ?_, ?_⟩, ?_⟩
    · rw [hwinds.shutdown]
      omega
    · rw [hwinds.clients]
      refine hs.left.imp_right fun hmore => ?_
      omega
    · rw [hwinds.shutdown]
      omega
  | none =>
    -- the worker waits for a permit that is still to be released
    obtain ⟨hphase, hzero⟩ := (worker_eq_none hstep).resolve_left hi
    have hwaits := le_total isWaiting s.workers i
    rw [hphase, isWaiting] at hwaits
    cases hshut : s.shutdown with
    | releasing k =>
      rw [hshut, releasesLeft] at hpermits
      cases k with
      | zero => omega
      | succ k =>
        refine ⟨.shutdown, { s with permits := s.permits + 1, shutdown := .releasing k }, ?_,
          ⟨hs.running, ?_, hs.left⟩, ?_⟩
        · simp only [State.next, State.shutDown, hshut]
        · simp only [releasesLeft]
          omega
        · simp only [releasesLeft]
          omega
    | idle =>
      rw [hshut, releasesLeft] at hpermits
      omega
    | announced =>
      rw [hshut, releasesLeft] at hpermits
      omega

/-- The session that is left over stays in the queue, or is pushed there when all workers have
exited. -/
theorem exists_not_graceful (hs : s.LeftOver) :
    ∃ trace t, Run next s trace t ∧ t.AllExited ∧ ¬ t.Graceful := by
  obtain ⟨trace, t, hrun, hexited, ht⟩ : ∃ trace t, Run next s trace t ∧ t.AllExited ∧ t.LeftOver :=
    Run.exists_of_measure (fun s => total stepsLeft s.workers + releasesLeft s.shutdown)
      (fun s hs hnot => hs.step hnot) hs
  rcases ht.left with ⟨c, hc⟩ | hmore
  · -- the client goes on when nobody looks into the queue any more
    have hpush : t.next (.client c) = some { t.setClient c .pushed with queue := t.queue ++ [c] } := by
      simp only [State.next, State.client, hc]
    refine ⟨_, _, hrun.snoc hpush, hexited, fun hgraceful => ?_⟩
    have hempty := hgraceful.empty
    simp at hempty
  · refine ⟨trace, t, hrun, hexited, fun hgraceful => ?_⟩
    rw [total_isCleared_of_allExited hexited, hgraceful.empty] at hmore
    exact absurd hmore (Nat.lt_irrefl 0)

end LeftOver

/-- Who waits waits for the permits of the shutdown. -/
theorem leftOver_of_stops (hstops : s.Stops .shutdown) (h : s.next .shutdown = some t)
    (hnot : ¬ s.Drained) : t.LeftOver := by
  simp only [next, shutDown, hstops.2] at h
  cases h
  have hwaiting : total isWaiting s.workers ≤ n := total_le (fun p => by cases p <;> simp [isWaiting]) _
  refine ⟨rfl, ?_, ?_⟩
  · simp only [releasesLeft]
    omega
  · -- no client left over and no session too many would be drained
    by_contra hleft
    rw [not_or, not_exists, Nat.not_lt] at hleft
    exact hnot ⟨hleft.1, hleft.2⟩

/-! ## Which shutdowns are graceful -/

/-- A shutdown loses no session if nothing is left over when it takes `running_` down. If something is,
it may lose one. -/
theorem shutdown_graceful (workerCount : Nat) :
    (∀ trace t, Run next (new (poolSize workerCount)) trace t →
      (∀ p ∈ trace, p.1.Stops p.2 → p.1.Drained) → t.AllExited → t.Graceful) ∧
    ∀ trace s s', Run next (new (poolSize workerCount)) trace s → s.Stops .shutdown →
      s.next .shutdown = some s' →
      ((∀ trace' t, Run next s' trace' t → t.AllExited → t.Graceful) ↔ s.Drained) := by
  have hpos := poolSize_pos workerCount
  refine ⟨fun trace t hrun hstops hexited => ?_, fun trace s s' hrun hstops hstep => ⟨?_, ?_⟩⟩
  · have hs := Sound.of_run hrun
    have hdown : t.running = false := hs.exited ⟨0, hpos⟩ (hexited _)
    exact (drained_of_run hrun hstops hdown).graceful hs hexited
  · intro hgraceful
    by_contra hnot
    -- a session that is left over can be led to its loss
    obtain ⟨trace', t, hrest, hexited, hlost⟩ :=
      (leftOver_of_stops hstops hstep hnot).exists_not_graceful
    exact hlost (hgraceful trace' t hrest hexited)
  · intro hdrained trace' t hrest hexited
    -- the drained state behind the store is kept by every step
    have hs' := (Sound.of_run hrun).next hstep
    have hdown : s'.running = false := by
      simp only [next, shutDown, hstops.2] at hstep
      cases hstep
      rfl
    have hlast := hrest.invariant
      (P := fun s => s.Sound ∧ s.running = false ∧ s.Drained) ⟨hs', hdown, hdrained.shutDown hstep⟩
      fun s turn t hs hturn => ⟨hs.1.next hturn, ?_, hs.2.2.next hs.1 hs.2.1 hturn⟩
    · exact hlast.2.2.graceful hlast.1 hexited
    · rw [running_next hturn fun hagain => ?_]
      · exact hs.2.1
      · obtain ⟨k, hk⟩ := hs.1.stopped.1 hs.2.1
        rw [hagain.2] at hk
        cases hk

/-- A session is run, and then the worker waits while the shutdown takes the flag down. -/
def servedTurns : List (Turn (poolSize 1)) :=
  [.client 0, .client 0, .client 0, .client 0, .worker ⟨0, by decide⟩, .worker ⟨0, by decide⟩,
    .worker ⟨0, by decide⟩, .worker ⟨0, by decide⟩, .worker ⟨0, by decide⟩, .worker ⟨0, by decide⟩,
    .shutdown]

/-- The worker takes its permit and finds the flag down. -/
def leaveTurns : List (Turn (poolSize 1)) := [.shutdown, .worker ⟨0, by decide⟩, .worker ⟨0, by decide⟩]

theorem shutdown_graceful_one : ∃ trace s s', Run next (new (poolSize 1)) trace s ∧
    s.Stops .shutdown ∧ s.next .shutdown = some s' ∧
    ((∀ trace' t, Run next s' trace' t → t.AllExited → t.Graceful) ↔ s.Drained) ∧
    ∃ trace' t, Run next (new (poolSize 1)) trace' t ∧ t.AllExited ∧ t.runs 0 = 1 ∧ t.Graceful := by
  obtain ⟨s, s', t, hs, hstep, ht, hleave, hexited, hruns, hstops, hdrained⟩ : ∃ s s' t,
      (follow next servedTurns (new (poolSize 1))).2 = some s ∧ s.next .shutdown = some s' ∧
      (follow next leaveTurns s').2 = some t ∧
      (∀ p ∈ (follow next leaveTurns s').1, ¬ p.1.Stops p.2) ∧ t.AllExited ∧ t.runs 0 = 1 ∧
      s.Stops .shutdown ∧ s.Drained := by
    refine ⟨_, _, _, rfl, rfl, rfl, by decide, by decide, rfl, by decide, fun c hc => ?_, Nat.zero_le _⟩
    cases c with
    | zero => cases hc
    | succ c => cases hc
  have hserved : ∀ p ∈ (follow next servedTurns (new (poolSize 1))).1, ¬ p.1.Stops p.2 := by decide
  have hrun := Run.of_follow hs
  have hwhole := (hrun.snoc hstep).append_follow ht
  refine ⟨_, s, s', hrun, hstops, hstep, (shutdown_graceful 1).2 _ s s' hrun hstops hstep, _, t, hwhole,
    hexited, hruns, (shutdown_graceful 1).1 _ t hwhole (fun p hp hstop => ?_) hexited⟩
  rcases List.mem_append.1 hp with hp | hp
  · rcases List.mem_append.1 hp with hp | hp
    · exact absurd hstop (hserved p hp)
    · rw [List.mem_singleton.1 hp]
      exact hdrained
  · exact absurd hstop (hleave p hp)

/-- A session is queued while the worker waits, and the flag goes down before the worker wakes up. -/
def droppedTurns : List (Turn (poolSize 1)) :=
  [.worker ⟨0, by decide⟩, .client 0, .client 0, .client 0, .client 0, .shutdown, .shutdown,
    .worker ⟨0, by decide⟩, .worker ⟨0, by decide⟩]

theorem shutdown_drops_session : ∃ trace t, Run next (new (poolSize 1)) trace t ∧ t.AllExited ∧
    t.clients 0 = .returned ∧ t.queue = [0] ∧ t.runs 0 = 0 ∧ ¬ t.Graceful := by
  obtain ⟨t, ht, hexited, hclient, hqueue, hruns⟩ : ∃ t,
      (follow next droppedTurns (new (poolSize 1))).2 = some t ∧ t.AllExited ∧
      t.clients 0 = .returned ∧ t.queue = [0] ∧ t.runs 0 = 0 :=
    ⟨_, rfl, by decide, rfl, rfl, rfl⟩
  refine ⟨_, t, Run.of_follow ht, hexited, hclient, hqueue, hruns, fun hgraceful => ?_⟩
  have hempty := hgraceful.empty
  rw [hqueue] at hempty
  cases hempty

end State

end EngineDispatcher

end OpenDB
