import CppProgramming.SimpleHttp.Server

/-! # The socket table

An entry of the `SocketMap` lives longer than its descriptor: the close callback closes the descriptor first and
deletes the entry last, and the events that `epoll_wait` has returned refer to entries that the callback may
delete. While neither overlap occurs, the entries are those of the sockets in the epoll set and of the callbacks
that have taken one out of it. -/

namespace SimpleHttp.Server
open Interleaving

/-! ### Steps -/

/-- An exception that a system call causes. -/
def Error.IsSystem : Error → Prop
  | .fdExist _ | .fdNotExist _ => False
  | _ => True

/-- The loop makes a system call that may fail. -/
def LoopPc.MayFail : LoopPc → Prop
  | .wait | .accept _ | .epAdd _ _ | .epDelete | .closeFd => True
  | _ => False

/-- What a thread may do, with what it found. -/
inductive Step (listenFd : Fd) (s : Shared) : Thread → Act → Thread → Prop
  | wait {es : List Event} : (∀ e ∈ es, s.registered e.fd = true) →
      Step listenFd s (.loop .wait) .look (.loop (.events es))
  | raise {p : LoopPc} {e : Error} : p.MayFail → e.IsSystem →
      Step listenFd s (.loop p) .look (.loop (.raised e))
  | done : Step listenFd s (.loop (.events [])) .look (.loop .exitTest)
  | listen {e : Event} {es : List Event} : e.fd = listenFd →
      Step listenFd s (.loop (.events (e :: es))) .look (.loop (.accept es))
  | event {e : Event} {es : List Event} : e.fd ≠ listenFd →
      Step listenFd s (.loop (.events (e :: es))) .look (.loop (.checkEvent e.fd e.events es))
  | again : Step listenFd s (.loop .exitTest) .look (.loop .wait)
  | exit : Step listenFd s (.loop .exitTest) .look (.loop .getValues)
  | accept {fd : Fd} {es : List Event} : fd ≠ listenFd → s.isOpen fd = false →
      Step listenFd s (.loop (.accept es)) (.accept fd) (.loop (.checkNew fd es))
  | fdExist {fd : Fd} {es : List Event} : s.socketMap.contains fd = true →
      Step listenFd s (.loop (.checkNew fd es)) .look (.loop (.raised (.fdExist fd)))
  | fdNew {fd : Fd} {es : List Event} : s.socketMap.contains fd = false →
      Step listenFd s (.loop (.checkNew fd es)) .look (.loop (.epAdd fd es))
  | epAdd {fd : Fd} {es : List Event} : s.registered fd = false →
      Step listenFd s (.loop (.epAdd fd es)) (.epAdd fd) (.loop (.nextConnId fd es))
  | nextConnId {fd : Fd} {es : List Event} :
      Step listenFd s (.loop (.nextConnId fd es)) .nextConnId (.loop (.mapAdd fd es))
  | mapAdd {fd : Fd} {es : List Event} :
      Step listenFd s (.loop (.mapAdd fd es)) (.mapAdd fd s.nextConnId) (.loop (.newConnection fd es))
  | newConnection {fd : Fd} {es : List Event} :
      Step listenFd s (.loop (.newConnection fd es)) (.newConnection fd s.nextConnId) (.loop (.events es))
  | fdNotExist {fd : Fd} {eventMask : UInt32} {es : List Event} : s.socketMap.contains fd = false →
      Step listenFd s (.loop (.checkEvent fd eventMask es)) .look (.loop (.raised (.fdNotExist fd)))
  | fdFound {fd : Fd} {eventMask : UInt32} {es : List Event} : s.socketMap.contains fd = true →
      Step listenFd s (.loop (.checkEvent fd eventMask es)) .look (.loop (.getValue fd (reports eventMask) es))
  | reported {fd : Fd} {es : List Event} : Step listenFd s (.loop (.getValue fd [] es)) .look (.loop (.events es))
  | getValue {fd : Fd} {r : Report} {rs : List Report} {es : List Event} :
      Step listenFd s (.loop (.getValue fd (r :: rs) es)) (.getValue fd)
        (.loop (.report r (s.socketMap.getD fd 0) fd rs es))
  | report {r : Report} {id : ConnId} {fd : Fd} {rs : List Report} {es : List Event} :
      Step listenFd s (.loop (.report r id fd rs es)) (.report r id) (.loop (.getValue fd rs es))
  | getValues : Step listenFd s (.loop .getValues) .look (.loop (.timeToExit s.socketMap.values))
  | told : Step listenFd s (.loop (.timeToExit [])) .look (.loop .epDelete)
  | timeToExit {id : ConnId} {ids : List ConnId} :
      Step listenFd s (.loop (.timeToExit (id :: ids))) (.report .timeToExit id) (.loop (.timeToExit ids))
  | epDelete : Step listenFd s (.loop .epDelete) (.epDelete listenFd) (.loop .closeFd)
  | closeFd : Step listenFd s (.loop .closeFd) (.closeFd listenFd) (.loop .finished)
  | close {fd : Fd} : fd ∈ s.handlers → Step listenFd s (.worker .idle) .look (.worker (.epDelete fd))
  | closeEpDelete {fd : Fd} : s.registered fd = true →
      Step listenFd s (.worker (.epDelete fd)) (.epDelete fd) (.worker (.closeFd fd))
  | closeCloseFd {fd : Fd} : s.isOpen fd = true →
      Step listenFd s (.worker (.closeFd fd)) (.closeFd fd) (.worker (.mapDelete fd))
  | closeMapDelete {fd : Fd} : s.socketMap.contains fd = true →
      Step listenFd s (.worker (.mapDelete fd)) (.mapDelete fd) (.worker .idle)
  | crash {t : Thread} : Step listenFd s t .terminate t

section Inversion
variable {listenFd : Fd} {eventCount : Nat} {s : Shared} {o : Choice} {a : Act}

theorem ClosePc.step_cases {p p' : ClosePc} (h : p.step s o = some (a, p')) :
    Step listenFd s (.worker p) a (.worker p') := by
  cases p with
  | idle =>
    simp only [ClosePc.step] at h
    split at h
    · split at h
      · next hmem =>
        cases h
        exact .close hmem
      · cases h
    · cases h
  | epDelete fd =>
    simp only [ClosePc.step] at h
    split at h
    · split at h
      · next hreg =>
        cases h
        exact .closeEpDelete hreg
      · cases h
    · cases h
      exact .crash
    · cases h
  | closeFd fd =>
    simp only [ClosePc.step] at h
    split at h
    · split at h
      · next hopen =>
        cases h
        exact .closeCloseFd hopen
      · cases h
    · cases h
      exact .crash
    · cases h
  | mapDelete fd =>
    simp only [ClosePc.step] at h
    split at h
    · next hmem =>
      cases h
      exact .closeMapDelete hmem
    · cases h
      exact .crash

theorem processNewConnection_cases {p p' : LoopPc} (h : processNewConnection listenFd s o p = some (a, p')) :
    Step listenFd s (.loop p) a (.loop p') := by
  unfold processNewConnection at h
  split at h
  · split at h
    · next fd =>
      split at h
      · next hopen =>
        cases h
        exact .accept (fun heq => by simp [heq, hopen.1] at hopen) hopen.2
      · cases h
    · cases h
      exact .raise trivial trivial
    · cases h
  · split at h
    · next hmem =>
      cases h
      exact .fdExist hmem
    · next hmem =>
      cases h
      exact .fdNew (Bool.eq_false_of_not_eq_true hmem)
  · split at h
    · split at h
      · cases h
      · next hreg =>
        cases h
        exact .epAdd (Bool.eq_false_of_not_eq_true hreg)
    · cases h
      exact .raise trivial trivial
    · cases h
  · cases h
    exact .nextConnId
  · cases h
    exact .mapAdd
  · cases h
    exact .newConnection
  · cases h

theorem processEvent_cases {p p' : LoopPc} (h : processEvent s p = some (a, p')) :
    Step listenFd s (.loop p) a (.loop p') := by
  unfold processEvent at h
  split at h
  · split at h
    · next hmem =>
      cases h
      exact .fdFound hmem
    · next hmem =>
      cases h
      exact .fdNotExist (Bool.eq_false_of_not_eq_true hmem)
  · cases h
    exact .reported
  · cases h
    exact .getValue
  · cases h
    exact .report
  · cases h

theorem release_cases {p p' : LoopPc} (h : release listenFd s o p = some (a, p')) :
    Step listenFd s (.loop p) a (.loop p') := by
  unfold release at h
  split at h
  · cases h
    exact .getValues
  · cases h
    exact .told
  · cases h
    exact .timeToExit
  · split at h
    · split at h
      · cases h
        exact .epDelete
      · cases h
    · cases h
      exact .raise trivial trivial
    · cases h
  · split at h
    · split at h
      · cases h
        exact .closeFd
      · cases h
    · cases h
      exact .raise trivial trivial
    · cases h
  · cases h

theorem LoopPc.step_cases {p p' : LoopPc} (h : p.step listenFd eventCount s o = some (a, p')) :
    Step listenFd s (.loop p) a (.loop p') := by
  cases p with
  | wait =>
    simp only [LoopPc.step] at h
    split at h
    · split at h
      · next hes =>
        cases h
        exact .wait (by simpa using hes.2)
      · cases h
    · cases h
      exact .raise trivial trivial
    · cases h
  | events es =>
    cases es with
    | nil =>
      cases h
      exact .done
    | cons e es =>
      simp only [LoopPc.step] at h
      split at h
      · next heq =>
        cases h
        exact .listen heq
      · next hne =>
        cases h
        exact .event hne
  | exitTest =>
    simp only [LoopPc.step] at h
    split at h
    · cases h
      exact .again
    · cases h
      exact .exit
    · cases h
  | accept es => exact processNewConnection_cases h
  | checkNew fd es => exact processNewConnection_cases (o := o) h
  | epAdd fd es => exact processNewConnection_cases h
  | nextConnId fd es => exact processNewConnection_cases (o := o) h
  | mapAdd fd es => exact processNewConnection_cases (o := o) h
  | newConnection fd es => exact processNewConnection_cases (o := o) h
  | checkEvent fd eventMask es => exact processEvent_cases h
  | getValue fd rs es => exact processEvent_cases h
  | report r id fd rs es => exact processEvent_cases h
  | getValues => exact release_cases (o := o) h
  | timeToExit ids => exact release_cases (o := o) h
  | epDelete => exact release_cases h
  | closeFd => exact release_cases h
  | finished => cases h
  | raised e => cases h

theorem Thread.step_cases {t t' : Thread} (h : t.step listenFd eventCount s o = some (a, t')) :
    Step listenFd s t a t' := by
  cases t with
  | loop p =>
    obtain ⟨⟨a, p'⟩, hp, heq⟩ := Option.map_eq_some_iff.mp h
    cases heq
    exact LoopPc.step_cases hp
  | worker p =>
    obtain ⟨⟨a, p'⟩, hp, heq⟩ := Option.map_eq_some_iff.mp h
    cases heq
    exact ClosePc.step_cases hp

end Inversion

/-! ### Roles -/

/-- What a thread has to do with a descriptor: `ProcessNewConnection` looks it up, adds it to the epoll set or to
    the `SocketMap`, and the close callback closes it or deletes its entry. -/
inductive Role where
  | none
  | checks
  | registers
  | adds
  | closes
  | deletes
  deriving DecidableEq

/-- What the thread does with the descriptor. -/
def Thread.role (fd : Fd) : Thread → Role
  | .loop (.checkNew fd' _) => if fd' = fd then .checks else .none
  | .loop (.epAdd fd' _) => if fd' = fd then .registers else .none
  | .loop (.nextConnId fd' _) | .loop (.mapAdd fd' _) => if fd' = fd then .adds else .none
  | .worker (.closeFd fd') => if fd' = fd then .closes else .none
  | .worker (.mapDelete fd') => if fd' = fd then .deletes else .none
  | _ => .none

/-- The thread has the role, as a count. -/
def Thread.has (fd : Fd) (r : Role) (t : Thread) : Nat := if t.role fd = r then 1 else 0

/-- The threads that have a role for `fd`. -/
def count (s : State) (fd : Fd) (r : Role) : Nat := s.weight (Thread.has fd r)

/-- The number of event loops. -/
def Thread.isLoop : Thread → Nat
  | .loop _ => 1
  | .worker _ => 0

/-- A thread goes from one role to another. -/
def Moved (n n' : Role → Nat) (r r' : Role) : Prop :=
  ∀ q, n' q + (if r = q then 1 else 0) = n q + (if r' = q then 1 else 0)

/-- A descriptor, with the numbers `n` of threads in each role: in the epoll set or in the hands of a thread it is
    open, an entry of the `SocketMap` is that of a socket in the epoll set or of a close callback, and there is
    one owner, unless it has been accepted while a callback is still to delete its entry. -/
structure Balance (isOpen registered entry : Bool) (n : Role → Nat) : Prop where
  backed : registered.toNat + n .closes + n .checks + n .registers ≤ isOpen.toNat
  listed : entry.toNat + n .adds = registered.toNat + n .closes + n .deletes
  owned : isOpen.toNat + n .deletes ≤ 1 + n .checks

namespace Balance
variable {o r e : Bool} {n n' : Role → Nat}

theorem keep {q : Role} (h : Balance o r e n) (hn : Moved n n' q q) : Balance o r e n' := by
  have heq : n' = n := funext fun q' => Nat.add_right_cancel (hn q')
  rwa [heq]

theorem accept (h : Balance false r e n) (hn : Moved n n' .none .checks) (hno : n .checks = 0) :
    Balance true r e n' := by
  obtain ⟨hbacked, hlisted, howned⟩ := h
  constructor <;> grind [Moved, Bool.toNat]

theorem check (h : Balance o r false n) (hn : Moved n n' .checks .registers) (hno : n .adds = 0) :
    Balance o r false n' := by
  obtain ⟨hbacked, hlisted, howned⟩ := h
  constructor <;> grind [Moved, Bool.toNat]

theorem epAdd (h : Balance o false e n) (hn : Moved n n' .registers .adds) : Balance o true e n' := by
  obtain ⟨hbacked, hlisted, howned⟩ := h
  constructor <;> grind [Moved, Bool.toNat]

/-- The connection is given up when `ep->Add` throws. -/
theorem drop (h : Balance o r e n) (hn : Moved n n' .registers .none) : Balance o r e n' := by
  obtain ⟨hbacked, hlisted, howned⟩ := h
  constructor <;> grind [Moved]

theorem mapAdd (h : Balance o r e n) (hn : Moved n n' .adds .none) (hno : n .checks = 0) : Balance o r true n' := by
  obtain ⟨hbacked, hlisted, howned⟩ := h
  constructor <;> grind [Moved, Bool.toNat]

theorem epDelete (h : Balance o true e n) (hn : Moved n n' .none .closes) : Balance o false e n' := by
  obtain ⟨hbacked, hlisted, howned⟩ := h
  constructor <;> grind [Moved, Bool.toNat]

theorem closeFd (h : Balance o r e n) (hn : Moved n n' .closes .deletes) : Balance false false e n' := by
  obtain ⟨hbacked, hlisted, howned⟩ := h
  constructor <;> grind [Moved, Bool.toNat]

theorem mapDelete (h : Balance o r true n) (hn : Moved n n' .deletes .none) : Balance o r false n' := by
  obtain ⟨hbacked, hlisted, howned⟩ := h
  constructor <;> grind [Moved, Bool.toNat]

end Balance

/-- The descriptor `fd` of the server is in balance. -/
def Balanced (fd : Fd) (s : State) : Prop :=
  Balance (s.shared.isOpen fd) (s.shared.registered fd) (s.shared.socketMap.contains fd) (count s fd)

theorem contains_insert_of_ne {m : SocketMap} {fd fd' : Fd} {id : ConnId} (h : fd' ≠ fd) :
    (m.insert fd' id).contains fd = m.contains fd := by
  simp [Std.TreeMap.contains_insert, h]

theorem contains_erase_of_ne {m : SocketMap} {fd fd' : Fd} (h : fd' ≠ fd) :
    (m.erase fd').contains fd = m.contains fd := by
  simp [Std.TreeMap.contains_erase, h]

theorem contains_insertIfNew_of_mem {m : SocketMap} {fd fd' : Fd} {id : ConnId} (h : fd' = fd → m.contains fd = true) :
    (m.insertIfNew fd' id).contains fd = m.contains fd := by
  by_cases heq : fd' = fd
  · subst heq
    simp [h rfl]
  · simp [Std.TreeMap.contains_insertIfNew, heq]

section Balance
variable {listenFd fd : Fd} {s : State} {i : Nat} {t t' : Thread} {a : Act}

theorem count_moved (fd : Fd) (x : Shared) (t' : Thread) (hi : s.threads[i]? = some t) :
    Moved (count s fd) (count ⟨x, s.threads.set i t'⟩ fd) (t.role fd) (t'.role fd) :=
  fun r => Config.weight_run (Thread.has fd r) x t' hi

theorem count_of_loop (fd : Fd) {p : LoopPc} (hsole : s.weight Thread.isLoop = 1) (ht : .loop p ∈ s.threads) {r : Role}
    (hr : r = .checks ∨ r = .adds) : count s fd r = (Thread.loop p).has fd r := by
  refine Config.weight_eq_of_sole ?_ ht rfl hsole
  intro t
  cases t with
  | loop p =>
    unfold Thread.has
    split <;> simp [Thread.isLoop]
  | worker p => rcases hr with rfl | rfl <;> cases p <;> simp [Thread.has, Thread.role, ite_eq_iff]

/-- A step keeps the balance of every descriptor but the listening one, if `CheckSocketExist` does not find an
    entry that a close callback is about to delete, and `GetValue` finds one. -/
theorem Balanced.step (hb : Balanced fd s) (hsole : s.weight Thread.isLoop = 1) (hfd : fd ≠ listenFd)
    (hi : s.threads[i]? = some t) (hstep : Step listenFd s.shared t a t')
    (hget : a = .getValue fd → s.shared.socketMap.contains fd = true)
    (hnew : t' ≠ .loop (.raised (.fdExist fd))) : Balanced fd ⟨a.apply s.shared, s.threads.set i t'⟩ := by
  have hn := count_moved fd (a.apply s.shared) t' hi
  have hno : ∀ {p : LoopPc}, t = .loop p → ∀ r, r = .checks ∨ r = .adds → count s fd r = t.has fd r := by
    rintro p rfl r hr
    exact count_of_loop fd hsole (List.mem_of_getElem? hi) hr
  unfold Balanced at hb ⊢
  -- A step that concerns a descriptor changes it and the role of the thread together; for another one, it
  -- changes neither.
  cases hstep with
  | @accept fd' es hne hclosed =>
    by_cases heq : fd' = fd
    · subst heq
      simp only [Thread.role, if_true] at hn
      rw [hclosed] at hb
      simpa [Act.apply] using hb.accept hn (hno rfl .checks (by simp))
    · simp only [Thread.role, if_neg heq] at hn
      simpa [Act.apply, Ne.symm heq] using hb.keep hn
  | @fdExist fd' es hmem =>
    have heq : fd' ≠ fd := fun heq => hnew (by rw [heq])
    simp only [Thread.role, if_neg heq] at hn
    exact hb.keep hn
  | @fdNew fd' es hmem =>
    by_cases heq : fd' = fd
    · subst heq
      simp only [Thread.role, if_true] at hn
      rw [hmem] at hb
      simpa [Act.apply, hmem] using hb.check hn ((hno rfl .adds (by simp)).trans (by simp [Thread.has, Thread.role]))
    · simp only [Thread.role, if_neg heq] at hn
      simpa [Act.apply] using hb.keep hn
  | @epAdd fd' es hreg =>
    by_cases heq : fd' = fd
    · subst heq
      simp only [Thread.role, if_true] at hn
      rw [hreg] at hb
      simpa [Act.apply] using hb.epAdd hn
    · simp only [Thread.role, if_neg heq] at hn
      simpa [Act.apply, Ne.symm heq] using hb.keep hn
  | @mapAdd fd' es =>
    by_cases heq : fd' = fd
    · subst heq
      simp only [Thread.role, if_true] at hn
      simpa [Act.apply] using hb.mapAdd hn ((hno rfl .checks (by simp)).trans (by simp [Thread.has, Thread.role]))
    · simp only [Thread.role, if_neg heq] at hn
      simpa [Act.apply, contains_insert_of_ne heq] using hb.keep hn
  | @getValue fd' r rs es =>
    have hmem : fd' = fd → s.shared.socketMap.contains fd = true := fun heq => hget (by rw [heq])
    simpa [Act.apply, contains_insertIfNew_of_mem hmem] using hb.keep hn
  | @closeEpDelete fd' hreg =>
    by_cases heq : fd' = fd
    · subst heq
      simp only [Thread.role, if_true] at hn
      rw [hreg] at hb
      simpa [Act.apply] using hb.epDelete hn
    · simp only [Thread.role, if_neg heq] at hn
      simpa [Act.apply, Ne.symm heq] using hb.keep hn
  | @closeCloseFd fd' hopen =>
    by_cases heq : fd' = fd
    · subst heq
      simp only [Thread.role, if_true] at hn
      simpa [Act.apply] using hb.closeFd hn
    · simp only [Thread.role, if_neg heq] at hn
      simpa [Act.apply, Ne.symm heq] using hb.keep hn
  | @closeMapDelete fd' hmem =>
    by_cases heq : fd' = fd
    · subst heq
      simp only [Thread.role, if_true] at hn
      rw [hmem] at hb
      simpa [Act.apply] using hb.mapDelete hn
    · simp only [Thread.role, if_neg heq] at hn
      simpa [Act.apply, contains_erase_of_ne heq] using hb.keep hn
  | epDelete => simpa [Act.apply, hfd] using hb.keep hn
  | closeFd => simpa [Act.apply, hfd] using hb.keep hn
  | @raise p e hp he =>
    cases p with
    | epAdd fd' es =>
      by_cases heq : fd' = fd
      · simp only [Thread.role, if_pos heq] at hn
        exact hb.drop hn
      · simp only [Thread.role, if_neg heq] at hn
        exact hb.keep hn
    | wait => exact hb.keep hn
    | accept es => exact hb.keep hn
    | epDelete => exact hb.keep hn
    | closeFd => exact hb.keep hn
    | _ => exact hp.elim
  | _ => exact hb.keep hn

end Balance

/-! ### The event loop -/

/-- The sockets whose entries the loop is still to look up: those of the events that it has not begun with, and the
    one whose event it processes, as long as a lookup is left. -/
def Thread.pending : Thread → List Fd
  | .loop (.events es) | .loop (.accept es) | .loop (.checkNew _ es) | .loop (.epAdd _ es) | .loop (.nextConnId _ es)
  | .loop (.mapAdd _ es) | .loop (.newConnection _ es) | .loop (.getValue _ [] es)
  | .loop (.report _ _ _ [] es) => es.map Event.fd
  | .loop (.checkEvent fd _ es) | .loop (.getValue fd (_ :: _) es)
  | .loop (.report _ _ fd (_ :: _) es) => fd :: es.map Event.fd
  | _ => []

/-- The socket that the loop works on. -/
def Thread.target : Thread → Option Fd
  | .loop (.checkNew fd _) | .loop (.epAdd fd _) | .loop (.nextConnId fd _) | .loop (.mapAdd fd _)
  | .loop (.newConnection fd _) | .loop (.checkEvent fd _ _) | .loop (.getValue fd _ _)
  | .loop (.report _ _ fd _ _) => some fd
  | _ => none

/-- The connection `id` is the one that was accepted on `fd`: the ids count the results of `accept()`. -/
def Shared.IsAccepted (s : Shared) (fd : Fd) (id : ConnId) : Prop := 0 < id ∧ s.accepted[id - 1]? = some fd

/-- The counter and the results of `accept()`, as the loop finds them. -/
def Thread.Numbered (s : Shared) : Thread → Prop
  | .loop (.checkNew fd _) | .loop (.epAdd fd _) | .loop (.nextConnId fd _) =>
    s.accepted.length = s.nextConnId + 1 ∧ s.accepted[s.nextConnId]? = some fd
  | .loop (.mapAdd fd _) => s.accepted.length = s.nextConnId ∧ s.IsAccepted fd s.nextConnId
  | .loop (.raised _) | .worker _ => True
  | .loop _ => s.accepted.length = s.nextConnId

section Loop
variable {listenFd fd : Fd} {s : Shared} {t t' : Thread} {a : Act}

theorem Step.isLoop (h : Step listenFd s t a t') : t'.isLoop = t.isLoop := by
  cases h <;> rfl

theorem Step.target (h : Step listenFd s t a t') (ht : ∀ fd, t.target = some fd → fd ≠ listenFd) :
    ∀ fd, t'.target = some fd → fd ≠ listenFd := by
  intro fd hfd
  cases h with
  | event hne =>
    cases hfd
    exact hne
  | accept hne =>
    cases hfd
    exact hne
  | crash => exact ht fd hfd
  | _ =>
    first
    | exact ht fd hfd
    | cases hfd

/-- The loop looks up what it was to look up before, and the sockets that `epoll_wait` reports. -/
theorem Step.pending (h : Step listenFd s t a t') (hfd : fd ∈ t'.pending) :
    fd ∈ t.pending ∨ t = .loop .wait ∧ s.registered fd = true := by
  cases h with
  | wait hes =>
    obtain ⟨e, he, rfl⟩ := List.mem_map.mp hfd
    exact Or.inr ⟨rfl, hes e he⟩
  | @fdFound _ eventMask es hmem =>
    cases hrs : reports eventMask with
    | nil =>
      rw [hrs] at hfd
      exact Or.inl (List.mem_cons_of_mem _ hfd)
    | cons r rs =>
      rw [hrs] at hfd
      exact Or.inl hfd
  | @getValue _ r rs es =>
    cases rs with
    | nil => exact Or.inl (List.mem_cons_of_mem _ hfd)
    | cons r' rs => exact Or.inl hfd
  | @report r id _ rs es =>
    cases rs with
    | nil => exact Or.inl hfd
    | cons r' rs => exact Or.inl hfd
  | listen => exact Or.inl (List.mem_cons_of_mem _ hfd)
  | _ =>
    first
    | exact Or.inl hfd
    | cases hfd

/-- Only `SocketMap::Delete` takes an entry away. -/
theorem Act.apply_contains (a : Act) (hne : a ≠ .mapDelete fd) (h : s.socketMap.contains fd = true) :
    (a.apply s).socketMap.contains fd = true := by
  cases a with
  | mapAdd fd' id => simp [Act.apply, Std.TreeMap.contains_insert, h]
  | getValue fd' => simp [Act.apply, Std.TreeMap.contains_insertIfNew, h]
  | mapDelete fd' =>
    have hfd : fd' ≠ fd := fun heq => hne (by rw [heq])
    simpa [Act.apply, contains_erase_of_ne hfd] using h
  | _ => exact h

/-- An entry after a step is one from before, or the one of the new connection, or one that `GetValue` added. -/
theorem Step.entry (h : Step listenFd s t a t') {id : ConnId} (hid : (a.apply s).socketMap[fd]? = some id) :
    s.socketMap[fd]? = some id ∨ (∃ es, t = .loop (.mapAdd fd es) ∧ id = s.nextConnId) ∨
      (∃ r rs es, t = .loop (.getValue fd (r :: rs) es)) ∧ s.socketMap.contains fd = false := by
  cases h with
  | @mapAdd fd' es =>
    simp only [Act.apply, Std.TreeMap.getElem?_insert] at hid
    split at hid
    · next heq =>
      cases hid
      rw [Nat.compare_eq_eq] at heq
      exact Or.inr (Or.inl ⟨es, by rw [heq], rfl⟩)
    · exact Or.inl hid
  | @getValue fd' r rs es =>
    simp only [Act.apply, Std.TreeMap.getElem?_insertIfNew] at hid
    split at hid
    · next heq =>
      obtain ⟨heq, hmem⟩ := heq
      rw [Nat.compare_eq_eq] at heq
      subst heq
      exact Or.inr (Or.inr ⟨⟨r, rs, es, rfl⟩, Bool.eq_false_of_not_eq_true (mt Std.TreeMap.mem_iff_contains.mpr hmem)⟩)
    · exact Or.inl hid
  | @closeMapDelete fd' hmem =>
    simp only [Act.apply, Std.TreeMap.getElem?_erase] at hid
    split at hid
    · cases hid
    · exact Or.inl hid
  | _ => exact Or.inl hid

theorem Shared.IsAccepted.apply {id : ConnId} (h : s.IsAccepted fd id) (a : Act) : (a.apply s).IsAccepted fd id := by
  obtain ⟨hpos, hacc⟩ := h
  cases a with
  | accept fd' =>
    refine ⟨hpos, ?_⟩
    show (s.accepted ++ [fd'])[id - 1]? = some fd
    rw [List.getElem?_append_left (List.getElem?_eq_some_iff.mp hacc).1]
    exact hacc
  | _ => exact ⟨hpos, hacc⟩

theorem Thread.Numbered.congr {x : Shared} (h : t.Numbered s) (hacc : x.accepted = s.accepted)
    (hid : x.nextConnId = s.nextConnId) : t.Numbered x := by
  unfold Thread.Numbered Shared.IsAccepted at h ⊢
  rw [hacc, hid]
  exact h

/-- The loop takes the next number for what it accepts. -/
theorem Step.numbered (h : Step listenFd s t a t') (ht : t.Numbered s) : t'.Numbered (a.apply s) := by
  cases h with
  | @accept fd' es hne hclosed =>
    have hlen : s.accepted.length = s.nextConnId := ht
    exact ⟨by simp [Act.apply, hlen], by simp [Act.apply, ← hlen]⟩
  | @nextConnId fd' es =>
    obtain ⟨hlen, hacc⟩ := ht
    exact ⟨hlen, Nat.succ_pos _, hacc⟩
  | mapAdd => exact ht.1
  | crash => exact ht.congr rfl rfl
  | _ =>
    first
    | exact ht
    | trivial

theorem Step.numbered_other {u : Thread} (h : Step listenFd s t a t') (hone : t.isLoop = 0 ∨ u.isLoop = 0)
    (hu : u.Numbered s) : u.Numbered (a.apply s) := by
  cases u with
  | worker p => trivial
  | loop p =>
    have ht : t.isLoop = 0 := hone.resolve_right (by simp [Thread.isLoop])
    cases h with
    | close => exact hu
    | closeEpDelete => exact hu.congr rfl rfl
    | closeCloseFd => exact hu.congr rfl rfl
    | closeMapDelete => exact hu.congr rfl rfl
    | crash => exact hu.congr rfl rfl
    | _ => cases ht

end Loop

/-! ### Runs -/

/-- The runs in which `ProcessNewConnection` does not look up a descriptor while a close callback is between
    `CloseFd` and `SocketMap::Delete` for it, and `SocketMap::Delete` does not take the entry of a socket away while
    the event loop is still to look it up. -/
def noOverlap : Rule Shared Thread Act Empty where
  step s t a := (∀ fd es, t = .loop (.checkNew fd es) → ∀ u ∈ s.threads, u ≠ .worker (.mapDelete fd)) ∧
    ∀ fd, a = .mapDelete fd → ∀ u ∈ s.threads, fd ∉ u.pending
  call _ := True

/-- What holds in such a run. -/
structure Ordered (listenFd : Fd) (s : State) : Prop where
  sole : s.weight Thread.isLoop = 1
  balanced : ∀ fd, fd ≠ listenFd → Balanced fd s
  target : ∀ t ∈ s.threads, ∀ fd, t.target = some fd → fd ≠ listenFd
  pending : ∀ t ∈ s.threads, ∀ fd ∈ t.pending, fd ≠ listenFd → s.shared.socketMap.contains fd = true
  numbered : ∀ t ∈ s.threads, t.Numbered s.shared
  entries : ∀ fd id, s.shared.socketMap[fd]? = some id → s.shared.IsAccepted fd id
  calm : ∀ t ∈ s.threads, ∀ fd, t ≠ .loop (.raised (.fdExist fd)) ∧ t ≠ .loop (.raised (.fdNotExist fd))

namespace Ordered
variable {listenFd fd : Fd} {s : State} {i : Nat} {t t' : Thread} {a : Act}

theorem eq_of_role_deletes (h : t.role fd = .deletes) : t = .worker (.mapDelete fd) := by
  unfold Thread.role at h
  split at h <;> simp_all [ite_eq_iff]

/-- What `CheckSocketExist` finds for a new descriptor is left by a close callback. -/
theorem not_fdExist (h : Ordered listenFd s) {es : List Event} (ht : .loop (.checkNew fd es) ∈ s.threads)
    (hno : ∀ u ∈ s.threads, u ≠ .worker (.mapDelete fd)) : s.shared.socketMap.contains fd = false := by
  obtain ⟨hbacked, hlisted, -⟩ := h.balanced fd (h.target _ ht fd rfl)
  have hchecks := count_of_loop fd h.sole ht (Or.inl rfl)
  have hdeletes : count s fd .deletes = 0 := by
    by_contra hpos
    obtain ⟨u, hu, hhas⟩ := Config.weight_pos.mp (Nat.pos_of_ne_zero hpos)
    refine hno u hu (eq_of_role_deletes ?_)
    by_contra hrole
    simp [Thread.has, hrole] at hhas
  have hle := Bool.toNat_le (s.shared.isOpen fd)
  simp only [Thread.has, Thread.role, if_true] at hchecks
  by_contra hmem
  rw [Bool.eq_true_of_not_eq_false hmem, Bool.toNat_true] at hlisted
  omega

/-- A socket in the epoll set has an entry when the loop waits. -/
theorem contains_of_registered (h : Ordered listenFd s) (ht : .loop .wait ∈ s.threads) (hfd : fd ≠ listenFd)
    (hreg : s.shared.registered fd = true) : s.shared.socketMap.contains fd = true := by
  obtain ⟨-, hlisted, -⟩ := h.balanced fd hfd
  have hadds := count_of_loop fd h.sole ht (Or.inr rfl)
  simp only [Thread.has, Thread.role, reduceCtorEq, if_false] at hadds
  by_contra hmem
  rw [Bool.eq_false_of_not_eq_true hmem, hreg, Bool.toNat_false, Bool.toNat_true] at hlisted
  omega

theorem contains_of_target (h : Ordered listenFd s) (ht : t ∈ s.threads) (htarget : t.target = some fd)
    (hfd : fd ∈ t.pending) : s.shared.socketMap.contains fd = true :=
  h.pending t ht fd hfd (h.target t ht fd htarget)

theorem calm_step (h : Ordered listenFd s) (hi : s.threads[i]? = some t) (hs : Step listenFd s.shared t a t')
    (hok : noOverlap.step s t a) (fd : Fd) :
    t' ≠ .loop (.raised (.fdExist fd)) ∧ t' ≠ .loop (.raised (.fdNotExist fd)) := by
  have ht := List.mem_of_getElem? hi
  cases hs with
  | @fdExist fd' es hmem =>
    rw [h.not_fdExist ht (hok.1 fd' es rfl)] at hmem
    cases hmem
  | @fdNotExist fd' eventMask es hmem =>
    rw [h.contains_of_target ht rfl List.mem_cons_self] at hmem
    cases hmem
  | raise hp he =>
    refine ⟨?_, ?_⟩
    · rintro ⟨⟩
      exact he
    · rintro ⟨⟩
      exact he
  | crash => exact h.calm t ht fd
  | _ => exact ⟨by simp, by simp⟩

theorem contains_of_getValue (h : Ordered listenFd s) (hi : s.threads[i]? = some t)
    (hs : Step listenFd s.shared t (.getValue fd) t') : s.shared.socketMap.contains fd = true := by
  cases hs
  exact h.contains_of_target (List.mem_of_getElem? hi) rfl List.mem_cons_self

theorem pending_step (h : Ordered listenFd s) (hi : s.threads[i]? = some t) (hs : Step listenFd s.shared t a t')
    (hok : noOverlap.step s t a) {u : Thread} (hu : u ∈ s.threads.set i t') (hmem : fd ∈ u.pending)
    (hfd : fd ≠ listenFd) : (a.apply s.shared).socketMap.contains fd = true := by
  have ht := List.mem_of_getElem? hi
  have hbefore : s.shared.socketMap.contains fd = true ∧ a ≠ .mapDelete fd := by
    rcases eq_or_of_mem_set hu with rfl | ⟨j, -, hj⟩
    · rcases hs.pending hmem with hmem | ⟨rfl, hreg⟩
      · exact ⟨h.pending t ht fd hmem hfd, fun heq => hok.2 fd heq t ht hmem⟩
      · refine ⟨h.contains_of_registered ht hfd hreg, ?_⟩
        rintro rfl
        cases hs
    · have hj := List.mem_of_getElem? hj
      exact ⟨h.pending u hj fd hmem hfd, fun heq => hok.2 fd heq u hj hmem⟩
  exact a.apply_contains hbefore.2 hbefore.1

theorem numbered_step (h : Ordered listenFd s) (hi : s.threads[i]? = some t) (hs : Step listenFd s.shared t a t')
    {u : Thread} (hu : u ∈ s.threads.set i t') : u.Numbered (a.apply s.shared) := by
  rcases eq_or_of_mem_set hu with rfl | ⟨j, hne, hj⟩
  · exact hs.numbered (h.numbered t (List.mem_of_getElem? hi))
  · have hone := Config.add_le_weight (f := Thread.isLoop) hj hi hne
    rw [h.sole] at hone
    exact hs.numbered_other (by omega) (h.numbered u (List.mem_of_getElem? hj))

theorem entries_step (h : Ordered listenFd s) (hi : s.threads[i]? = some t) (hs : Step listenFd s.shared t a t')
    {id : ConnId} (hid : (a.apply s.shared).socketMap[fd]? = some id) : (a.apply s.shared).IsAccepted fd id := by
  have ht := List.mem_of_getElem? hi
  rcases hs.entry hid with hid | ⟨es, rfl, rfl⟩ | ⟨⟨r, rs, es, rfl⟩, hmem⟩
  · exact (h.entries fd id hid).apply a
  · exact (h.numbered _ ht).2.apply a
  · rw [h.contains_of_target ht rfl List.mem_cons_self] at hmem
    cases hmem

theorem step (h : Ordered listenFd s) (hi : s.threads[i]? = some t) (hs : Step listenFd s.shared t a t')
    (hok : noOverlap.step s t a) : Ordered listenFd ⟨a.apply s.shared, s.threads.set i t'⟩ where
  sole := by
    have hrun := Config.weight_run Thread.isLoop (a.apply s.shared) t' hi
    rw [hs.isLoop, h.sole] at hrun
    exact Nat.add_right_cancel hrun
  balanced fd hfd := by
    refine (h.balanced fd hfd).step h.sole hfd hi hs ?_ (h.calm_step hi hs hok fd).1
    rintro rfl
    exact h.contains_of_getValue hi hs
  target u hu := by
    rcases eq_or_of_mem_set hu with rfl | ⟨j, -, hj⟩
    · exact hs.target (h.target t (List.mem_of_getElem? hi))
    · exact h.target u (List.mem_of_getElem? hj)
  pending u hu fd hmem hfd := h.pending_step hi hs hok hu hmem hfd
  numbered u hu := h.numbered_step hi hs hu
  entries fd id hid := h.entries_step hi hs hid
  calm u hu fd := by
    rcases eq_or_of_mem_set hu with rfl | ⟨j, -, hj⟩
    · exact h.calm_step hi hs hok fd
    · exact h.calm u (List.mem_of_getElem? hj) fd

end Ordered

theorem mem_start {listenFd : Fd} {workers : Nat} {t : Thread} (ht : t ∈ (start listenFd workers).threads) :
    t = .loop .wait ∨ t = .worker .idle := by
  rcases List.mem_cons.mp ht with rfl | ht
  · exact Or.inl rfl
  · exact Or.inr (List.eq_of_mem_replicate ht)

theorem ordered_start (listenFd : Fd) (workers : Nat) : Ordered listenFd (start listenFd workers) where
  sole := by simp [start, Config.weight, Thread.isLoop]
  balanced fd hfd := by
    have hcount : ∀ r, r ≠ .none → count (start listenFd workers) fd r = 0 := by
      intro r hr
      by_contra hpos
      obtain ⟨t, ht, hhas⟩ := Config.weight_pos.mp (Nat.pos_of_ne_zero hpos)
      rcases mem_start ht with rfl | rfl <;> simp [Thread.has, Thread.role, Ne.symm hr] at hhas
    constructor <;> simp only [hcount, ne_eq, reduceCtorEq, not_false_eq_true] <;> simp [start, hfd]
  target t ht fd hfd := by
    rcases mem_start ht with rfl | rfl <;> cases hfd
  pending t ht fd hfd := by
    rcases mem_start ht with rfl | rfl <;> cases hfd
  numbered t ht := by
    rcases mem_start ht with rfl | rfl
    · rfl
    · trivial
  entries fd id hid := by simp [start] at hid
  calm t ht fd := by
    rcases mem_start ht with rfl | rfl
    · exact ⟨by simp, by simp⟩
    · exact ⟨by simp, by simp⟩

theorem ordered {listenFd : Fd} {eventCount workers : Nat} {s : State}
    (h : Reach (server listenFd eventCount) noOverlap (start listenFd workers) s) : Ordered listenFd s := by
  induction h with
  | start => exact ordered_start listenFd workers
  | run _ _ hi hs hok ih => exact ih.step hi (Thread.step_cases hs) hok
  | enter _ hk => cases hk

/-- The `SocketMap` is right about the connections, and the event loop has not found it wrong. -/
structure Agreed (s : State) : Prop where
  entries : ∀ fd id, s.shared.socketMap[fd]? = some id → s.shared.IsAccepted fd id
  fdExist : ∀ t ∈ s.threads, ∀ fd, t ≠ .loop (.raised (.fdExist fd))
  fdNotExist : ∀ t ∈ s.threads, ∀ fd, t ≠ .loop (.raised (.fdNotExist fd))

/-- As long as the event loop and the close callbacks do not overlap, the `SocketMap` is right. -/
theorem socketMap_agreed (listenFd : Fd) (eventCount workers : Nat) (s : State)
    (h : Reach (server listenFd eventCount) noOverlap (start listenFd workers) s) : Agreed s := by
  have hordered := ordered h
  refine ⟨hordered.entries, ?_, ?_⟩
  · intro t ht fd
    exact (hordered.calm t ht fd).1
  · intro t ht fd
    exact (hordered.calm t ht fd).2

/-- The loop accepts a connection on the descriptor 5 and waits again; the listening socket is 4. -/
def acceptOne : List (Move Choice Empty) :=
  [[.run 0 (.events [⟨4, epollIn⟩]), .run 0 .go, .run 0 (.accepted 5)], .replicate 7 (.run 0 .go)].flatten

/-- The worker runs the close callback of the descriptor 5. -/
def closeOne : List (Move Choice Empty) := .run 1 (.close 5) :: List.replicate 3 (.run 1 .go)

/-- The lookup of a new descriptor does not overlap with a close callback. -/
def Thread.isClear (s : State) : Thread → Bool
  | .loop (.checkNew fd _) => s.threads.all fun u => u.role fd ≠ .deletes
  | _ => true

/-- `SocketMap::Delete` does not overlap with the processing of an event. -/
def Act.isClear (s : State) : Act → Bool
  | .mapDelete fd => s.threads.all fun u => fd ∉ u.pending
  | _ => true

/-- An event found no entry. -/
def Thread.foundNone : Thread → Bool
  | .loop (.raised (.fdNotExist _)) => true
  | _ => false

/-- The descriptor 5 is closed and used again. -/
theorem socketMap_agreed_reused : ∃ s : State, Reach (server 4 8) noOverlap (start 4 1) s ∧
    s.shared.socketMap[5]? = some 2 ∧ Agreed s := by
  have hrun : ((server 4 8).exec (fun s t a => t.isClear s && a.isClear s) (fun _ => true) (start 4 1)
      [acceptOne, [.run 0 (.events [⟨5, epollIn ||| epollOut⟩])], .replicate 9 (.run 0 .go), closeOne,
        acceptOne].flatten).any (fun s => s.shared.socketMap[5]? = some 2) = true := by
    decide
  obtain ⟨s, hs, hp⟩ := Reach.exists_of_exec noOverlap (by
    intro s t a hstep
    rw [Bool.and_eq_true] at hstep
    refine ⟨?_, ?_⟩
    · rintro fd es rfl u hu rfl
      simpa [Thread.role] using List.all_eq_true.mp hstep.1 _ hu
    · rintro fd rfl u hu
      simpa using List.all_eq_true.mp hstep.2 u hu) (fun _ _ => trivial) hrun
  exact ⟨s, hs, of_decide_eq_true hp, socketMap_agreed 4 8 1 s hs⟩

/-- An event of a socket that a worker closes before the loop gets to it ends `Server::Start`. -/
theorem event_of_closed_socket : ¬∀ (listenFd : Fd) (eventCount workers : Nat) (s : State),
    Reachable listenFd eventCount workers s → Agreed s := by
  intro hall
  have hrun : ((server 4 8).exec (fun _ _ _ => true) (fun _ => true) (start 4 1)
      [acceptOne, [.run 0 (.events [⟨5, epollIn⟩])], closeOne, [.run 0 .go, .run 0 .go]].flatten).any
      (fun s => s.threads.any Thread.foundNone) = true := by
    decide
  obtain ⟨s, hs, hp⟩ := Reach.exists_of_exec Rule.any (fun _ _ _ _ => trivial) (fun _ _ => trivial) hrun
  obtain ⟨t, ht, hraised⟩ := List.any_eq_true.mp hp
  unfold Thread.foundNone at hraised
  split at hraised
  · next fd => exact (hall 4 8 1 s hs).fdNotExist _ ht fd rfl
  · cases hraised

end SimpleHttp.Server
