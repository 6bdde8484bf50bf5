import CppProgramming.EdgeTriggered.Events

/-! # Release

`Release` closes what is in `conns` by telling the first session that it is time to exit, until nothing is left, and
then the listening socket. It goes on only because the session takes its own descriptor out of `conns`, which it does
while the two tables agree. -/

namespace EdgeTriggered
open Execution

/-- Code that may throw, with the descriptors for which `close` has succeeded. -/
abbrev Logged := EStateM Error (World × List Fd)

/-- Code that closes nothing. -/
def Logged.of {α : Type} (x : Exec α) : Logged α := fun (w, closed) =>
  match x w with
  | .ok a w' => .ok a (w', closed)
  | .error e w' => .error e (w', closed)

instance : MonadLift Exec Logged where
  monadLift := Logged.of

/-! ### `TimeToExit` with its calls of `close` -/

namespace Logged

/-- `Server::CloseFd`. -/
def closeFd (fd : Fd) : Logged Unit := do
  Server.closeFd fd
  modify fun (w, closed) => (w, closed ++ [fd])

/-- The callback of a `ConnHandler`. -/
def closeConn (fdv : Fd) : Logged Unit := do
  Epoll.deleteFd fdv
  closeFd fdv
  modify fun (w, closed) => ({ w with conns := w.conns.erase fdv }, closed)

/-- `Session::Close`. -/
def close (p : SessionPtr) : Logged Unit := do
  if (← Session.this p).isClosed then throw .sessionClosed
  closeConn (← Session.this p).connHandler.fd
  SessionManager.releaseSession (← Session.this p).id
  Session.assign p fun session => { session with isClosed := true }

/-- `SessionManager::TimeToExit`. -/
def timeToExit (id : ConnId) : Logged Unit := do
  SessionManager.verifySessionExist id
  close (← SessionManager.sessionAt id)

/-- What a call does to the world. -/
def world {α : Type} : EStateM.Result Error (World × List Fd) α → EStateM.Result Error World α
  | .ok a (w, _) => .ok a w
  | .error e (w, _) => .error e w

/-- `x` is `y` with its calls of `close`. -/
def Logs {α : Type} (x : Logged α) (y : Exec α) : Prop := ∀ w closed, world (x.run (w, closed)) = y.run w

section Logs
variable {α β : Type}

@[simp] theorem liftM_eq {x : Exec α} : (liftM x : Logged α) = of x := rfl

theorem logs_of (x : Exec α) : Logs (of x) x := by
  intro w closed
  simp only [EStateM.run, of]
  split <;> simp_all [world]

theorem Logs.bind {x : Logged α} {y : Exec α} {f : α → Logged β} {g : α → Exec β} (hx : Logs x y)
    (hf : ∀ a, Logs (f a) (g a)) : Logs (x >>= f) (y >>= g) := by
  intro w closed
  have hrun := hx w closed
  cases h : x.run (w, closed) with
  | ok a s =>
    obtain ⟨w', closed'⟩ := s
    rw [h] at hrun
    rw [bind_ok h, bind_ok hrun.symm]
    exact hf a w' closed'
  | error e s =>
    obtain ⟨w', closed'⟩ := s
    rw [h] at hrun
    rw [bind_error h, bind_error hrun.symm]
    rfl

theorem Logs.of_ok {x : Logged α} {y : Exec α} (hx : Logs x y) {a : α} {w : World} {closed : List Fd}
    {r : World × List Fd} (h : x.run (w, closed) = .ok a r) : y.run w = .ok a r.1 := by
  rw [← hx w closed, h]
  rfl

theorem Logs.log {x : Logged Unit} {y : Exec Unit} (hx : Logs x y) (fd : Fd) :
    Logs (do x; modify fun (w, closed) => (w, closed ++ [fd])) y := by
  intro w closed
  rw [← hx w closed]
  cases h : x.run (w, closed) with
  | ok a s =>
    rw [bind_ok h]
    rfl
  | error e s => rw [bind_error h]

theorem Logs.ite {c : Bool} {x₁ x₂ : Logged α} {y₁ y₂ : Exec α} (h₁ : Logs x₁ y₁) (h₂ : Logs x₂ y₂) :
    Logs (if c then x₁ else x₂) (if c then y₁ else y₂) := by
  cases c
  · exact h₂
  · exact h₁

theorem logs_throw (e : Error) : Logs (throw e : Logged α) (throw e) := fun _ _ => rfl

end Logs

theorem closeConn_logs (fdv : Fd) : Logs (closeConn fdv) (Server.closeConn fdv) :=
  (logs_of _).bind fun _ => ((logs_of _).log fdv).bind fun _ => fun _ _ => rfl

theorem close_logs (p : SessionPtr) : Logs (close p) (Session.close p) := by
  have hrest : Logs
      (do closeConn (← Session.this p).connHandler.fd
          SessionManager.releaseSession (← Session.this p).id
          Session.assign p fun session => { session with isClosed := true })
      (do Server.closeConn (← Session.this p).connHandler.fd
          SessionManager.releaseSession (← Session.this p).id
          Session.assign p fun session => { session with isClosed := true }) :=
    (logs_of _).bind fun _ => (closeConn_logs _).bind fun _ => (logs_of _).bind fun _ => (logs_of _).bind fun _ =>
      logs_of _
  refine (logs_of _).bind fun session => ?_
  dsimp only
  refine Logs.ite ((logs_throw _).bind fun _ => hrest) hrest

/-- `timeToExit` is `SessionManager.timeToExit` with its calls of `close`. -/
theorem timeToExit_logs (id : ConnId) : Logs (timeToExit id) (SessionManager.timeToExit id) :=
  (logs_of _).bind fun _ => (logs_of _).bind fun p => close_logs p

/-! ### What a `TimeToExit` closes -/

section Run
variable {w : World} {p : SessionPtr} {s : Session} {id : ConnId} (closed : List Fd)

theorem of_run {α : Type} {x : Exec α} {a : α} {w' : World} (h : x.run w = .ok a w') :
    (of x).run (w, closed) = .ok a (w', closed) := by
  simp only [EStateM.run] at h
  simp only [EStateM.run, of, h]

theorem closeFd_run {fd : Fd} (hopen : w.isOpen fd = true) :
    (closeFd fd).run (w, closed) = .ok () ({ w with isOpen := Function.update w.isOpen fd false }, closed ++ [fd]) := by
  have hclose : (Server.closeFd fd).run w = .ok () { w with isOpen := Function.update w.isOpen fd false } := by
    simp [Server.closeFd, hopen]
  rw [closeFd, liftM_eq, bind_ok (of_run closed hclose), modify_run]

theorem closeConn_run {fd : Fd} (hreg : w.registered fd = true) (hopen : w.isOpen fd = true) :
    (closeConn fd).run (w, closed) = .ok () (w.disconnect fd, closed ++ [fd]) := by
  have hdelete : (Epoll.deleteFd fd).run w = .ok () { w with registered := Function.update w.registered fd false } := by
    simp [Epoll.deleteFd, hreg]
  have hclose := closeFd_run (w := { w with registered := Function.update w.registered fd false }) closed hopen
  rw [closeConn, liftM_eq, bind_ok (of_run closed hdelete), bind_ok hclose, modify_run]
  rfl

theorem close_put (hp : p < w.objects.length) (hclosed : s.isClosed = false) (hid : s.id ∈ w.sessions)
    (hreg : w.registered s.connHandler.fd = true) (hopen : w.isOpen s.connHandler.fd = true) :
    (close p).run (w.put p s, closed) =
      .ok () ((w.release s.connHandler.fd s.id).put p { s with isClosed := true }, closed ++ [s.connHandler.fd]) := by
  have hconn : (closeConn s.connHandler.fd).run (w.put p s, closed) =
      .ok () ((w.disconnect s.connHandler.fd).put p s, closed ++ [s.connHandler.fd]) :=
    closeConn_run closed hreg hopen
  have hrelease : (SessionManager.releaseSession s.id).run ((w.disconnect s.connHandler.fd).put p s) =
      .ok () ((w.release s.connHandler.fd s.id).put p s) :=
    SessionManager.releaseSession_run hid
  rw [close, liftM_eq, bind_ok (of_run _ (Session.this_put hp))]
  simp only [hclosed, Bool.false_eq_true, if_false, liftM_eq]
  rw [bind_ok (of_run _ (Session.this_put hp)), bind_ok hconn,
    bind_ok (of_run _ (Session.this_put (w := w.disconnect _) hp)), bind_ok (of_run _ hrelease),
    of_run _ (Session.assign_put (w := w.release _ _) hp _)]

/-- `TimeToExit` closes the descriptor of its session and no other. -/
theorem timeToExit_run (hid : w.sessions[id]? = some p) (hs : w.objects[p]? = some s) (hsid : s.id = id)
    (hclosed : s.isClosed = false) (hreg : w.registered s.connHandler.fd = true)
    (hopen : w.isOpen s.connHandler.fd = true) : (timeToExit id).run (w, closed) =
      .ok () ((w.release s.connHandler.fd id).put p { s with isClosed := true }, closed ++ [s.connHandler.fd]) := by
  obtain ⟨hp, -⟩ := List.getElem?_eq_some_iff.mp hs
  have hverify := SessionManager.verifySessionExist_run (SessionManager.mem_of_getElem? hid)
  subst hsid
  rw [timeToExit, liftM_eq, bind_ok (of_run _ hverify), liftM_eq, bind_ok (of_run _ (SessionManager.sessionAt_run hid))]
  conv_lhs => rw [← World.put_self hs]
  exact close_put closed hp hclosed (SessionManager.mem_of_getElem? hid) hreg hopen

end Run

end Logged

namespace Server

/-- The loop of `Release` for at most `n` rounds, and whether it has ended. -/
def releaseLoop : Nat → Logged Bool
  | 0 => return false
  | n + 1 => do
    let conns := (← get).1.conns
    match conns.minKey? with
    | none => return true
    | some fd =>
      Logged.timeToExit (conns.getD fd 0)
      releaseLoop n

/-- `Release`, whose loop has at most `n` rounds. -/
def release (listenFd : Fd) (n : Nat) : Logged Bool := do
  if !(← releaseLoop n) then return false
  Epoll.deleteFd listenFd
  Logged.closeFd listenFd
  return true

end Server

/-! ### The listening socket -/

/-- `Server::Start`: `others` are the descriptors that the process has beside the listening socket. -/
def World.listening (others : Fd → Bool) (listenFd : Fd) : World :=
  { isOpen := Function.update others listenFd true, registered := Function.update (fun _ => false) listenFd true }

/-- What holds between two calls of a server that has been started. -/
structure World.Running (others : Fd → Bool) (listenFd : Fd) (w : World) : Prop extends w.Tables where
  faithful : ∀ s ∈ w.objects, s.Faithful
  registered : w.registered listenFd = true
  isOpen : ∀ fd, w.isOpen fd = true ↔ (others fd = true ∨ fd = listenFd) ∨ fd ∈ w.conns
  fresh : ∀ fd ∈ w.conns, ¬(others fd = true ∨ fd = listenFd)

section Running
variable {others : Fd → Bool} {listenFd fd : Fd} {w w' : World} {call : Call} {id : ConnId}

namespace World.Running

theorem start (others : Fd → Bool) (listenFd : Fd) : (listening others listenFd).Running others listenFd where
  entry id p hp := by simp [listening] at hp
  idle s hs := by simp [listening] at hs
  conn fd id hfd := by simp [listening] at hfd
  faithful s hs := by simp [listening] at hs
  registered := by simp [listening]
  isOpen fd := by
    by_cases hfd : fd = listenFd
    · simp [listening, hfd]
    · simp [listening, hfd]
  fresh fd hfd := by simp [listening] at hfd

/-- A session that goes takes its descriptor with it, which was not open when the server started. -/
theorem release (hw : w.Running others listenFd) (hfd : fd ∈ w.conns) {p : SessionPtr} {s : Session}
    (htables : ((w.release fd id).put p s).Tables) (hfaithful : ∀ t ∈ ((w.release fd id).put p s).objects, t.Faithful) :
    ((w.release fd id).put p s).Running others listenFd where
  toTables := htables
  faithful := hfaithful
  registered := by
    show Function.update w.registered fd false listenFd = true
    rw [Function.update_of_ne fun heq => hw.fresh fd hfd (.inr heq.symm), hw.registered]
  isOpen fd' := by
    show Function.update w.isOpen fd false fd' = true ↔ _ ∨ fd' ∈ w.conns.erase fd
    by_cases heq : fd' = fd
    · subst heq
      simpa using hw.fresh fd' hfd
    · rw [Function.update_of_ne heq, hw.isOpen, mem_erase_iff, and_iff_right heq]
  fresh fd' hfd' := hw.fresh fd' (mem_erase_iff.mp hfd').2

theorem accept (hw : w.Running others listenFd) (hfd : w.isOpen fd = false) (htables : (w.accept fd).Tables)
    (hfaithful : ∀ t ∈ (w.accept fd).objects, t.Faithful) : (w.accept fd).Running others listenFd where
  toTables := htables
  faithful := hfaithful
  registered := by
    show Function.update w.registered fd true listenFd = true
    by_cases heq : listenFd = fd
    · rw [heq, Function.update_self]
    · rw [Function.update_of_ne heq, hw.registered]
  isOpen fd' := by
    show Function.update w.isOpen fd true fd' = true ↔ _ ∨ fd' ∈ w.conns.insert fd (w.nextConnId + 1)
    rw [mem_insert_iff]
    by_cases heq : fd' = fd
    · subst heq
      simp
    · rw [Function.update_of_ne heq, hw.isOpen, or_iff_right heq]
  fresh fd' hfd' := by
    obtain rfl | hmem := mem_insert_iff.mp hfd'
    · exact fun hold => Bool.eq_false_iff.mp hfd ((hw.isOpen fd').mpr (.inl hold))
    · exact hw.fresh fd' hmem

theorem step (hw : w.Running others listenFd) (hcall : ∀ fd, call = .newConnection fd → w.isOpen fd = false)
    (hstep : w.step call = some w') : w'.Running others listenFd := by
  have h := step_cases hw.toSessions hstep
  have htables := hw.toTables.of_step h
  have hfaithful := h.faithful hw.faithful
  cases h with
  | accept hfd hid => exact hw.accept (hcall _ rfl) htables hfaithful
  | read hp hs hstop => exact ⟨htables, hfaithful, hw.registered, hw.isOpen, hw.fresh⟩
  | write hp hs => exact ⟨htables, hfaithful, hw.registered, hw.isOpen, hw.fresh⟩
  | writeClose hp hs hall => exact hw.release (hw.mem_of_session hp hs) htables hfaithful
  | close _ hp hs => exact hw.release (hw.mem_of_session hp hs) htables hfaithful

end World.Running

end Running

/-! ### Runs -/

/-- `accept` returns a descriptor that is not open. -/
def Event.AcceptsFresh (w : World) : Event → Prop
  | .newConnection fd => w.isOpen fd = false
  | .connectionFails _ | .event .. => True

/-- What `accept` returns. -/
def Event.accepted : Event → Option Fd
  | .newConnection fd => some fd
  | .connectionFails _ | .event .. => none

/-- The descriptors that `accept` has returned. -/
def accepted (events : List Event) : List Fd := events.filterMap Event.accepted

section Runs
variable {others : Fd → Bool} {listenFd fd : Fd} {w w' : World} {e : Event} {events : List Event} {call : Call}

theorem World.Step.mem_conns (h : w.Step call w') (hcall : ∀ fd, call ≠ .newConnection fd) (hfd : fd ∈ w'.conns) :
    fd ∈ w.conns := by
  cases h with
  | accept => exact absurd rfl (hcall _)
  | read hp hs hstop => exact hfd
  | write hp hs => exact hfd
  | @writeClose id p s calls hp hs hall =>
    exact (mem_erase_iff.mp hfd).2
  | @close call id p s hcall hp hs =>
    exact (mem_erase_iff.mp hfd).2

namespace World.Running

theorem kept (others : Fd → Bool) (listenFd : Fd) (fds : Fd → Prop) :
    World.Kept fun w => w.Running others listenFd ∧ ∀ fd ∈ w.conns, fds fd where
  tables _ hw := hw.1.toTables
  faithful _ hw := hw.1.faithful
  step _ call w' hw hcall hstep := by
    refine ⟨hw.1.step (fun fd heq => absurd heq (hcall fd)) hstep, fun fd hfd => hw.2 fd ?_⟩
    exact (step_cases hw.1.toSessions hstep).mem_conns hcall hfd

theorem handle (hw : w.Running others listenFd) (hfresh : e.AcceptsFresh w) (hearly : ¬e.ClosesEarly w)
    (hrun : w.handle e = some w') :
    w'.Running others listenFd ∧ ∀ fd ∈ w'.conns, fd ∈ w.conns ∨ e.accepted = some fd := by
  rw [handle_eq_some] at hrun
  cases e with
  | newConnection fd =>
    have hstep : w.step (.newConnection fd) = some w' := step_eq_some.mpr hrun
    refine ⟨hw.step (fun fd' heq => by cases heq; exact hfresh) hstep, fun fd' hfd' => ?_⟩
    cases step_cases hw.toSessions hstep with
    | accept hfd hid =>
      obtain rfl | hmem := mem_insert_iff.mp hfd'
      · exact .inr rfl
      · exact .inl hmem
    | close hcall => rcases hcall with hcall | hcall <;> cases hcall
  | connectionFails failure =>
    obtain ⟨err, w'', hfails, -⟩ := Server.processNewConnection_fails (w := w) failure
    rw [Event.exec, hfails] at hrun
    cases hrun
  | event fd eventMask calls =>
    have hkept := kept others listenFd (· ∈ w.conns)
    have hI : w.Running others listenFd ∧ ∀ fd ∈ w.conns, fd ∈ w.conns := ⟨hw, fun _ => id⟩
    obtain ⟨id, p, s, hs, hcalls⟩ := Server.proceed_of_ok hkept hI hrun
    obtain ⟨w'', hok, hI'⟩ := Server.processEvent_ok hkept hI hs hcalls hearly
    cases hok.symm.trans hrun
    exact ⟨hI'.1, fun fd hfd => .inl (hI'.2 fd hfd)⟩

theorem run (hw : w.Running others listenFd) (hfresh : Each World.handle (fun w e => e.AcceptsFresh w) w events)
    (hearly : Each World.handle (fun w e => ¬e.ClosesEarly w) w events)
    (hrun : Execution.run World.handle w events = some w') :
    w'.Running others listenFd ∧ (∀ fd ∈ w'.conns, fd ∈ w.conns ∨ fd ∈ accepted events) ∧
      ∀ fd ∈ accepted events, ¬(others fd = true ∨ fd = listenFd) := by
  induction events generalizing w with
  | nil =>
    cases hrun
    exact ⟨hw, fun _ => .inl, by simp [accepted]⟩
  | cons e events ih =>
    obtain ⟨hfreshe, hfresh⟩ := each_cons.mp hfresh
    obtain ⟨hearlye, hearly⟩ := each_cons.mp hearly
    obtain ⟨w₁, hstep, hrun⟩ := Option.bind_eq_some_iff.mp hrun
    obtain ⟨hw₁, hconns⟩ := hw.handle hfreshe hearlye hstep
    obtain ⟨hw', hconns', hnew⟩ := ih hw₁ (hfresh w₁ hstep) (hearly w₁ hstep) hrun
    have haccepted : ∀ fd, fd ∈ accepted (e :: events) ↔ e.accepted = some fd ∨ fd ∈ accepted events := by
      intro fd
      simp only [accepted, List.mem_filterMap, List.mem_cons, or_and_right, exists_or, exists_eq_left]
    refine ⟨hw', fun fd hfd => ?_, fun fd hfd => ?_⟩
    · rw [haccepted]
      obtain hmem | hmem := hconns' fd hfd
      · exact (hconns fd hmem).imp_right .inl
      · exact .inr (.inr hmem)
    · obtain heq | hmem := (haccepted fd).mp hfd
      · cases e with
        | newConnection fd' =>
          cases heq
          exact fun hold => Bool.eq_false_iff.mp hfreshe ((hw.isOpen fd).mpr (.inl hold))
        | connectionFails => cases heq
        | event => cases heq
      · exact hnew fd hmem

end World.Running

/-! ### Runs with an orphan -/

/-- A lookup and the call for what it finds. -/
theorem World.Orphaned.of_connAt {fd' : Fd} (call : ConnId → Call) (h : w.Orphaned fd)
    (hrun : (do (call (← Server.connAt fd')).exec).run w = .ok () w') : w'.Orphaned fd := by
  cases hid : w.conns[fd']? with
  | some id =>
    rw [bind_ok (Server.connAt_run hid)] at hrun
    exact h.step (World.step_eq_some.mpr hrun)
  | none =>
    have hno : fd' ∉ w.conns := by
      rw [Std.TreeMap.mem_iff_isSome_getElem?, hid]
      simp
    rw [bind_ok (Server.connAt_new hid)] at hrun
    exact (h.insert hno).step (World.step_eq_some.mpr hrun)

theorem World.Orphaned.of_processEvent {fd' : Fd} {eventMask : UInt32} {calls : EventCalls} (h : w.Orphaned fd)
    (hrun : (Server.processEvent fd' eventMask calls).run w = .ok () w') : w'.Orphaned fd := by
  by_cases hfd : fd' ∈ w.conns
  · rw [Server.processEvent_run hfd] at hrun
    obtain ⟨⟨⟩, w₁, hin, hrun⟩ := exists_of_bind hrun
    obtain ⟨⟨⟩, w₂, hout, herr⟩ := exists_of_bind hrun
    have h₁ : w₁.Orphaned fd := by
      unfold Server.onIn at hin
      split at hin
      · exact h.of_connAt (fun id => .canRead id calls.read calls.readWrite) hin
      · cases hin
        exact h
    have h₂ : w₂.Orphaned fd := by
      unfold Server.onOut at hout
      split at hout
      · exact h₁.of_connAt (fun id => .canWrite id calls.write) hout
      · cases hout
        exact h₁
    unfold Server.onErr at herr
    split at herr
    · exact h₂.of_connAt .errorOccurred herr
    · cases herr
      exact h₂
  · rw [Server.processEvent_none hfd] at hrun
    cases hrun

theorem World.Orphaned.handle (h : w.Orphaned fd) (hrun : w.handle e = some w') : w'.Orphaned fd := by
  rw [handle_eq_some] at hrun
  cases e with
  | newConnection fd' => exact h.step (World.step_eq_some.mpr hrun : w.step (.newConnection fd') = some w')
  | connectionFails failure =>
    obtain ⟨err, w'', hfails, -⟩ := Server.processNewConnection_fails (w := w) failure
    rw [Event.exec, hfails] at hrun
    cases hrun
  | event fd' eventMask calls => exact h.of_processEvent hrun

/-- A call that closes early and returns leaves an entry that stays. -/
theorem World.Running.exists_orphaned (hw : w.Running others listenFd)
    (hfresh : Each World.handle (fun w e => e.AcceptsFresh w) w events)
    (hrun : Execution.run World.handle w events = some w')
    (h : ¬Each World.handle (fun w e => ¬e.ClosesEarly w) w events) : ∃ fd, w'.Orphaned fd := by
  induction events generalizing w with
  | nil => exact absurd each_nil h
  | cons e events ih =>
    obtain ⟨hfreshe, hfresh⟩ := each_cons.mp hfresh
    obtain ⟨w₁, hstep, hrest⟩ := Option.bind_eq_some_iff.mp hrun
    by_cases hearly : e.ClosesEarly w
    · cases e with
      | newConnection fd => exact absurd hearly id
      | connectionFails failure => exact absurd hearly id
      | event fd eventMask calls =>
        have hkept := kept others listenFd fun _ => True
        have hI : w.Running others listenFd ∧ ∀ fd ∈ w.conns, True := ⟨hw, fun _ _ => trivial⟩
        have hok := handle_eq_some.mp hstep
        obtain ⟨id, p, s, hs, hcalls⟩ := Server.proceed_of_ok hkept hI hok
        have horphan := Server.processEvent_closesEarly hkept hI hs hcalls hearly hok
        exact ⟨fd, run_inv (fun _ _ _ h hstep => Orphaned.handle h hstep) horphan hrest⟩
    · obtain ⟨hw₁, -⟩ := hw.handle hfreshe hearly hstep
      refine ih hw₁ (hfresh w₁ hstep) hrest fun hall => h (each_cons.mpr ⟨hearly, fun t ht => ?_⟩)
      cases ht.symm.trans hstep
      exact hall

end Runs

/-! ### The loop of `Release` -/

section Loop
variable {others : Fd → Bool} {listenFd fd : Fd} {w w' : World} {id : ConnId} {n : Nat} (closed : List Fd)

namespace Server

theorem releaseLoop_empty (h : w.conns.isEmpty = true) :
    (releaseLoop (n + 1)).run (w, closed) = .ok true (w, closed) := by
  rw [releaseLoop, get_bind]
  simp only [Std.TreeMap.minKey?_eq_none_iff.mpr h, pure_run]

theorem releaseLoop_first (h : w.conns.minKey? = some fd) (hid : w.conns[fd]? = some id) :
    (releaseLoop (n + 1)).run (w, closed) = (do Logged.timeToExit id; releaseLoop n).run (w, closed) := by
  rw [releaseLoop, get_bind]
  simp only [h, Std.TreeMap.getD_eq_getD_getElem?, hid, Option.getD_some]

/-- One round takes the first descriptor and its session. -/
theorem exists_round (hw : w.Running others listenFd) (h : w.conns.minKey? = some fd) :
    ∃ id w', w.conns[fd]? = some id ∧ (Logged.timeToExit id).run (w, closed) = .ok () (w', closed ++ [fd]) ∧
      w'.Running others listenFd ∧ w'.conns = w.conns.erase fd := by
  obtain ⟨hmem, -⟩ := Std.TreeMap.minKey?_eq_some_iff_mem_and_forall.mp h
  obtain ⟨id, p, s, hs⟩ := hw.exists_serves hmem
  have hfd := hw.serves_fd hs
  obtain ⟨t, ht, hsid, hclosed, -, hreg, hopen⟩ := hw.entry id p hs.session
  obtain rfl := Option.some.inj (ht.symm.trans hs.object)
  subst hfd
  have hrun := Logged.timeToExit_run closed hs.session hs.object hsid hclosed hreg hopen
  have hexit : (Call.timeToExit id).exec.run w = _ :=
    SessionManager.close_run hs.session hs.object hsid hclosed hreg hopen
  exact ⟨id, _, hs.conn, hrun, hw.step (fun _ heq => by cases heq) (World.step_eq_some.mpr hexit), rfl⟩

/-- Enough rounds leave nothing in `conns`, and close what was there. -/
theorem releaseLoop_run (hw : w.Running others listenFd) (hn : w.conns.size < n) :
    ∃ w' fds, (releaseLoop n).run (w, closed) = .ok true (w', closed ++ fds) ∧ w'.Running others listenFd ∧
      w'.conns.isEmpty = true ∧ fds.Nodup ∧ ∀ fd, fd ∈ fds ↔ fd ∈ w.conns := by
  induction n generalizing w closed with
  | zero => cases hn
  | succ n ih =>
    cases h : w.conns.minKey? with
    | none =>
      have hempty := Std.TreeMap.minKey?_eq_none_iff.mp h
      refine ⟨w, [], by rw [releaseLoop_empty closed hempty, List.append_nil], hw, hempty, List.nodup_nil, fun fd => ?_⟩
      simpa using Std.TreeMap.isEmpty_iff_forall_not_mem.mp hempty fd
    | some fd =>
      obtain ⟨hmem, -⟩ := Std.TreeMap.minKey?_eq_some_iff_mem_and_forall.mp h
      obtain ⟨id, w₁, hid, hround, hw₁, hconns⟩ := exists_round closed hw h
      have hsize : w₁.conns.size < n := by
        rw [hconns]
        exact Nat.lt_of_lt_of_le (size_erase_lt hmem) (Nat.lt_succ_iff.mp hn)
      obtain ⟨w', fds, hrest, hw', hempty, hnodup, hfds⟩ := ih (closed ++ [fd]) hw₁ hsize
      have hiff : ∀ fd', fd' ∈ fds ↔ fd' ≠ fd ∧ fd' ∈ w.conns := by
        intro fd'
        rw [hfds, hconns, mem_erase_iff]
      refine ⟨w', fd :: fds, ?_, hw', hempty, ?_, fun fd' => ?_⟩
      · rw [releaseLoop_first closed h hid, bind_ok hround, hrest, List.append_assoc]
        rfl
      · exact List.nodup_cons.mpr ⟨fun hmem' => ((hiff fd).mp hmem').1 rfl, hnodup⟩
      · rw [List.mem_cons, hiff]
        by_cases heq : fd' = fd
        · simp [heq, hmem]
        · simp [heq]

/-- An entry without a session is never taken out, so the loop does not come to its end. -/
theorem releaseLoop_orphaned (h : w.Orphaned fd) (r : World × List Fd) :
    (releaseLoop n).run (w, closed) ≠ .ok true r := by
  induction n generalizing w closed with
  | zero => exact fun hrun => by cases hrun
  | succ n ih =>
    intro hrun
    cases hfirst : w.conns.minKey? with
    | none =>
      have hempty := Std.TreeMap.minKey?_eq_none_iff.mp hfirst
      exact Std.TreeMap.isEmpty_iff_forall_not_mem.mp hempty fd h.mem
    | some fd' =>
      obtain ⟨hmem, -⟩ := Std.TreeMap.minKey?_eq_some_iff_mem_and_forall.mp hfirst
      obtain ⟨id, hid⟩ := mem_iff_getElem?.mp hmem
      rw [releaseLoop_first closed hfirst hid] at hrun
      obtain ⟨⟨⟩, ⟨w₁, closed₁⟩, hround, hrun⟩ := exists_of_bind hrun
      have hstep : w.step (.timeToExit id) = some w₁ := World.step_eq_some.mpr ((Logged.timeToExit_logs id).of_ok hround)
      exact ih closed₁ (h.step hstep) hrun

end Server

end Loop

/-! ### After any run -/

/-- `Release` returns and leaves both tables empty, and it has closed those of `fds` that were open and the listening
    socket, each once. -/
def World.Releases (w : World) (listenFd : Fd) (fds : List Fd) : Prop :=
  ∃ n w' closed, (Server.release listenFd n).run (w, []) = .ok true (w', closed) ∧
    w'.conns.isEmpty = true ∧ w'.sessions.isEmpty = true ∧
    closed.Nodup ∧ ∀ fd, fd ∈ closed ↔ fd = listenFd ∨ fd ∈ fds ∧ w.isOpen fd = true

section Release
variable {others : Fd → Bool} {listenFd fd : Fd} {w w' : World} {n : Nat}

namespace Server

theorem release_run {closed : List Fd} (hw : w'.Running others listenFd)
    (hloop : (releaseLoop n).run (w, []) = .ok true (w', closed)) :
    ∃ w'', (release listenFd n).run (w, []) = .ok true (w'', closed ++ [listenFd]) ∧ w''.conns = w'.conns ∧
      w''.sessions = w'.sessions := by
  have hopen : w'.isOpen listenFd = true := (hw.isOpen listenFd).mpr (.inl (.inr rfl))
  have hdelete : (Epoll.deleteFd listenFd).run w' =
      .ok () { w' with registered := Function.update w'.registered listenFd false } := by
    simp [Epoll.deleteFd, hw.registered]
  have hclose := Logged.closeFd_run (w := { w' with registered := Function.update w'.registered listenFd false })
    closed hopen
  refine ⟨{ w' with
    registered := Function.update w'.registered listenFd false
    isOpen := Function.update w'.isOpen listenFd false }, ?_, rfl, rfl⟩
  rw [release, bind_ok hloop]
  simp only [Bool.not_true, Bool.false_eq_true, if_false, Logged.liftM_eq]
  rw [bind_ok (Logged.of_run _ hdelete), bind_ok hclose, pure_run]

theorem release_orphaned (closed : List Fd) (h : w.Orphaned fd) (r : World × List Fd) :
    (release listenFd n).run (w, closed) ≠ .ok true r := by
  intro hrun
  obtain ⟨ended, r₁, hloop, hrun⟩ := exists_of_bind hrun
  cases ended with
  | true => exact releaseLoop_orphaned closed h r₁ hloop
  | false => cases hrun

end Server

theorem World.Sessions.isEmpty (h : w.Sessions) (hconns : w.conns.isEmpty = true) : w.sessions.isEmpty = true := by
  refine Std.TreeMap.isEmpty_iff_forall_not_mem.mpr fun id hid => ?_
  obtain ⟨p, hp⟩ := mem_iff_getElem?.mp hid
  obtain ⟨s, hs, -⟩ := h.entry id p hp
  exact Std.TreeMap.isEmpty_iff_forall_not_mem.mp hconns _ (h.mem_of_session hp hs)

theorem World.Running.releases (hw : w.Running others listenFd) {fds : List Fd} (hfds : ∀ fd ∈ w.conns, fd ∈ fds)
    (hnew : ∀ fd ∈ fds, ¬(others fd = true ∨ fd = listenFd)) : w.Releases listenFd fds := by
  obtain ⟨w₁, gone, hloop, hw₁, hempty, hnodup, hgone⟩ :=
    Server.releaseLoop_run [] hw (Nat.lt_succ_self w.conns.size)
  obtain ⟨w', hrun, hconns, hsessions⟩ := Server.release_run hw₁ hloop
  refine ⟨_, w', _, hrun, ?_, ?_, ?_, fun fd => ?_⟩
  · rw [hconns, hempty]
  · rw [hsessions, hw₁.toSessions.isEmpty hempty]
  · refine List.nodup_append.mpr ⟨hnodup, List.nodup_singleton _, fun fd hfd fd' hfd' => ?_⟩
    rintro rfl
    exact hw.fresh fd ((hgone fd).mp hfd) (.inr (List.mem_singleton.mp hfd'))
  · have hopen : fd ∈ w.conns ↔ fd ∈ fds ∧ w.isOpen fd = true := by
      constructor
      · intro hfd
        exact ⟨hfds fd hfd, (hw.isOpen fd).mpr (.inr hfd)⟩
      · rintro ⟨hfd, hopen⟩
        exact ((hw.isOpen fd).mp hopen).resolve_left (hnew fd hfd)
    rw [List.nil_append, List.mem_append, List.mem_singleton, hgone, hopen, or_comm]

end Release

/-- After any calls that return, `Release` shuts the server down completely, if and only if no mask with `EPOLLERR` came
    to a session that its `EPOLLOUT` closed. -/
theorem releases_iff_not_closesEarly (others : Fd → Bool) (listenFd : Fd) (events : List Event)
    (hfresh : Each World.handle (fun w e => e.AcceptsFresh w) (World.listening others listenFd) events) {w : World}
    (hrun : run World.handle (World.listening others listenFd) events = some w) :
    w.Releases listenFd (accepted events) ↔
      Each World.handle (fun w e => ¬e.ClosesEarly w) (World.listening others listenFd) events := by
  have hstart := World.Running.start others listenFd
  constructor
  · rintro ⟨n, w', closed, hrelease, -⟩
    by_contra h
    obtain ⟨fd, horphan⟩ := hstart.exists_orphaned hfresh hrun h
    exact Server.release_orphaned [] horphan (w', closed) hrelease
  · intro hearly
    obtain ⟨hw, hconns, hnew⟩ := hstart.run hfresh hearly hrun
    refine hw.releases (fun fd hfd => (hconns fd hfd).resolve_left ?_) hnew
    simp [World.listening]

/-! ### Ids that do not come again -/

/-- `nextConnId` counts the connections, and no session has the id 0. -/
structure World.Numbered (n : Nat) (w : World) : Prop where
  nextConnId : w.nextConnId = UInt64.ofNat n
  sessions : 0 ∉ w.sessions

section Numbered
variable {others : Fd → Bool} {listenFd fd : Fd} {w w' : World} {e : Event} {events : List Event} {n : Nat}

namespace World.Numbered

theorem start (others : Fd → Bool) (listenFd : Fd) : (listening others listenFd).Numbered 0 where
  nextConnId := rfl
  sessions := by simp [listening]

theorem accept (hw : w.Numbered n) (hn : n + 1 < 2 ^ 64) : (w.accept fd).Numbered (n + 1) where
  nextConnId := by
    show w.nextConnId + 1 = UInt64.ofNat (n + 1)
    rw [hw.nextConnId, UInt64.ofNat_add]
    rfl
  sessions := by
    intro hmem
    rcases mem_insert_iff.mp hmem with hzero | hmem
    · have hnat : (w.nextConnId + 1).toNat = n + 1 := by
        rw [hw.nextConnId, UInt64.toNat_add, UInt64.toNat_ofNat_of_lt' (Nat.lt_of_succ_lt hn)]
        exact Nat.mod_eq_of_lt hn
      rw [← hzero] at hnat
      cases hnat
    · exact hw.sessions hmem

/-- Only a new connection takes an id. -/
theorem step (hw : w.Numbered n) {call : Call} (hcall : ∀ fd, call ≠ .newConnection fd) (h : w.Step call w') :
    w'.Numbered n := by
  cases h with
  | accept => exact absurd rfl (hcall _)
  | read => exact ⟨hw.nextConnId, hw.sessions⟩
  | write => exact ⟨hw.nextConnId, hw.sessions⟩
  | writeClose => exact ⟨hw.nextConnId, fun hmem => hw.sessions (mem_erase_iff.mp hmem).2⟩
  | close => exact ⟨hw.nextConnId, fun hmem => hw.sessions (mem_erase_iff.mp hmem).2⟩

theorem kept (others : Fd → Bool) (listenFd : Fd) (n : Nat) :
    World.Kept fun w => w.Running others listenFd ∧ w.Numbered n where
  tables _ hw := hw.1.toTables
  faithful _ hw := hw.1.faithful
  step _ _ _ hw hcall hstep :=
    ⟨hw.1.step (fun fd heq => absurd heq (hcall fd)) hstep, hw.2.step hcall (step_cases hw.1.toSessions hstep)⟩

end World.Numbered

/-- Without a session of the id 0, `EPOLLERR` for a descriptor that has gone throws. -/
theorem Server.onErr_throws {eventMask : UInt32} (hfd : w.conns[fd]? = none) (hmask : eventMask &&& epollErr ≠ 0)
    (hzero : 0 ∉ w.sessions) : ∃ w', (onErr fd eventMask).run w = .error .verifySessionExist w' := by
  have hverify : (SessionManager.errorOccurred 0).run { w with conns := w.conns.insert fd 0 } = _ :=
    SessionManager.verify_error hzero
  exact ⟨_, by rw [onErr, if_pos hmask, bind_ok (connAt_new hfd), hverify]⟩

/-- So a call that closes early throws. -/
theorem World.Numbered.handle (hn : w.Numbered n) (hw : w.Running others listenFd)
    (hcount : n + (accepted [e]).length < 2 ^ 64) (hrun : w.handle e = some w') :
    ¬e.ClosesEarly w ∧ w'.Numbered (n + (accepted [e]).length) := by
  rw [handle_eq_some] at hrun
  cases e with
  | newConnection fd =>
    refine ⟨id, ?_⟩
    have hstep : w.Step (.newConnection fd) w' := step_cases hw.toSessions (step_eq_some.mpr hrun)
    cases hstep with
    | accept hfd hid => exact hn.accept hcount
    | close hcall => rcases hcall with hcall | hcall <;> cases hcall
  | connectionFails failure =>
    obtain ⟨err, w'', hfails, -⟩ := Server.processNewConnection_fails (w := w) failure
    rw [Event.exec, hfails] at hrun
    cases hrun
  | event fd eventMask calls =>
    have hkept := Numbered.kept others listenFd n
    obtain ⟨id, p, s, hs, hcalls⟩ := Server.proceed_of_ok hkept ⟨hw, hn⟩ hrun
    by_cases hearly : (Event.event fd eventMask calls).ClosesEarly w
    · obtain ⟨herr, w₁, heq, hw₁, hgone, -⟩ := Server.processEvent_early hkept ⟨hw, hn⟩ hs hcalls hearly
      obtain ⟨w₂, hthrows⟩ := Server.onErr_throws hgone herr hw₁.2.sessions
      rw [Event.exec, heq, hthrows] at hrun
      cases hrun
    · obtain ⟨w₁, hok, hw₁⟩ := Server.processEvent_ok hkept ⟨hw, hn⟩ hs hcalls hearly
      cases hok.symm.trans hrun
      exact ⟨hearly, hw₁.2⟩

theorem accepted_cons (e : Event) (events : List Event) :
    (accepted (e :: events)).length = (accepted [e]).length + (accepted events).length := by
  rw [← List.length_append]
  exact congrArg List.length (List.filterMap_append (l := [e]))

/-- As long as the ids have not come to 2 ^ 64, no call that returns closes early. -/
theorem World.Numbered.run (hn : w.Numbered n) (hw : w.Running others listenFd)
    (hfresh : Each World.handle (fun w e => e.AcceptsFresh w) w events)
    (hcount : n + (accepted events).length < 2 ^ 64) (hrun : Execution.run World.handle w events = some w') :
    Each World.handle (fun w e => ¬e.ClosesEarly w) w events := by
  induction events generalizing w n with
  | nil => exact each_nil
  | cons e events ih =>
    obtain ⟨hfreshe, hfresh⟩ := each_cons.mp hfresh
    obtain ⟨w₁, hstep, hrest⟩ := Option.bind_eq_some_iff.mp hrun
    rw [accepted_cons] at hcount
    obtain ⟨hearly, hn₁⟩ := hn.handle hw (by omega) hstep
    obtain ⟨hw₁, -⟩ := hw.handle hfreshe hearly hstep
    refine each_cons.mpr ⟨hearly, fun t ht => ?_⟩
    cases ht.symm.trans hstep
    exact ih hn₁ hw₁ (hfresh w₁ hstep) (by omega) hrest

end Numbered

/-- After any calls that return, with fewer than 2 ^ 64 connections among them, `Release` shuts the server down
    completely. -/
theorem release_shuts_down (others : Fd → Bool) (listenFd : Fd) (events : List Event)
    (hfresh : Each World.handle (fun w e => e.AcceptsFresh w) (World.listening others listenFd) events)
    (hcount : (accepted events).length < 2 ^ 64) {w : World}
    (hrun : run World.handle (World.listening others listenFd) events = some w) :
    w.Releases listenFd (accepted events) :=
  (releases_iff_not_closesEarly others listenFd events hfresh hrun).mpr
    ((World.Numbered.start others listenFd).run (World.Running.start others listenFd) hfresh (by omega) hrun)

instance (w : World) (e : Event) : Decidable (e.AcceptsFresh w) :=
  match e with
  | .newConnection fd => inferInstanceAs (Decidable (w.isOpen fd = false))
  | .connectionFails _ | .event .. => isTrue trivial

/-- Two connections: the first one sends a sentence, gets the answer and ends, its descriptor is used again, and a
    sentence of the second one is unanswered. -/
def conversation : List Event :=
  [.newConnection 5, .newConnection 6, .event 5 5 ⟨⟨[[97, 46]], .again⟩, ⟨[], .again⟩, ⟨[3], .again⟩⟩,
    .event 6 1 ⟨⟨[[98, 46]], .again⟩, ⟨[], .again⟩, ⟨[], .again⟩⟩,
    .event 5 5 ⟨⟨[], .eof⟩, ⟨[], .again⟩, ⟨[], .again⟩⟩, .newConnection 5]

theorem release_shuts_down_conversation : ∃ w,
    run World.handle (World.listening (fun _ => false) 3) conversation = some w ∧ w.Releases 3 [5, 6, 5] := by
  have hrun : (run World.handle (World.listening (fun _ => false) 3) conversation).isSome = true := by
    decide +kernel
  obtain ⟨w, hw⟩ := Option.isSome_iff_exists.mp hrun
  have hfresh : Each World.handle (fun w e => e.AcceptsFresh w) (World.listening (fun _ => false) 3) conversation := by
    decide +kernel
  exact ⟨w, hw, release_shuts_down (fun _ => false) 3 conversation hfresh (by decide) hw⟩

/-! ### An id that comes again -/

/-- Nothing comes in and nothing goes out. -/
def quiet : EventCalls := ⟨⟨[], .again⟩, ⟨[], .again⟩, ⟨[], .again⟩⟩

/-- The end of file, and nothing to write. -/
def hangup : EventCalls := ⟨⟨[], .eof⟩, ⟨[], .again⟩, ⟨[], .again⟩⟩

/-- A connection that fails at once. -/
def failing (fd : Fd) : List Event := [.newConnection fd, .event fd epollErr quiet]

section Wrap
variable {others : Fd → Bool} {listenFd fd : Fd} {w w' : World}

/-- Nothing is connected after `n` connections. -/
structure World.Idle (others : Fd → Bool) (listenFd : Fd) (n : Nat) (w : World) : Prop
    extends w.Running others listenFd where
  conns : w.conns.isEmpty = true
  nextConnId : w.nextConnId = UInt64.ofNat n

/-- A mask with nothing but `EPOLLERR` closes the session. -/
theorem Server.processEvent_err {id : ConnId} {p : SessionPtr} {s : Session} {calls : EventCalls} (hw : w.Tables)
    (hs : w.Serves fd id p s) :
    (processEvent fd epollErr calls).run w = .ok () ((w.release fd id).put p { s with isClosed := true }) := by
  obtain ⟨t, ht, hsid, hclosed, -, hreg, hopen⟩ := hw.entry id p hs.session
  obtain rfl := Option.some.inj (ht.symm.trans hs.object)
  have hin : (onIn fd epollErr calls).run w = .ok () w := by
    rw [onIn, if_neg (by decide), pure_run]
  have hout : (onOut fd epollErr calls).run w = .ok () w := by
    rw [onOut, if_neg (by decide), pure_run]
  rw [processEvent_run (mem_iff_getElem?.mpr ⟨id, hs.conn⟩), bind_ok hin, bind_ok hout, onErr, if_pos (by decide),
    bind_ok (connAt_run hs.conn), SessionManager.close_run hs.session hs.object hsid hclosed hreg hopen, hw.serves_fd hs]

theorem World.accept_serves : (w.accept fd).Serves fd (w.nextConnId + 1) w.objects.length
    { id := w.nextConnId + 1, connHandler := { fd := fd } } where
  conn := by
    show (w.conns.insert fd (w.nextConnId + 1))[fd]? = some (w.nextConnId + 1)
    rw [getElem?_insert_iff, if_pos rfl]
  session := by
    show (w.sessions.insert (w.nextConnId + 1) w.objects.length)[w.nextConnId + 1]? = some w.objects.length
    rw [getElem?_insert_iff, if_pos rfl]
  object := accept_new

namespace World.Idle
variable {n : Nat}

theorem not_mem_sessions (hw : w.Idle others listenFd n) (id : ConnId) : id ∉ w.sessions :=
  Std.TreeMap.isEmpty_iff_forall_not_mem.mp (hw.toSessions.isEmpty hw.conns) id

theorem not_mem_conns (hw : w.Idle others listenFd n) (fd : Fd) : fd ∉ w.conns :=
  Std.TreeMap.isEmpty_iff_forall_not_mem.mp hw.conns fd

theorem isOpen_false (hw : w.Idle others listenFd n) (hfd : ¬(others fd = true ∨ fd = listenFd)) : w.isOpen fd = false :=
  Bool.eq_false_iff.mpr fun hopen => hw.not_mem_conns fd (((hw.isOpen fd).mp hopen).resolve_left hfd)

theorem accept (hw : w.Idle others listenFd n) (hfd : ¬(others fd = true ∨ fd = listenFd)) :
    w.handle (.newConnection fd) = some (w.accept fd) ∧ (w.accept fd).Running others listenFd := by
  have haccept := handle_accept (hw.not_mem_conns fd) (hw.not_mem_sessions _)
  exact ⟨haccept, (hw.toRunning.handle (e := .newConnection fd) (hw.isOpen_false hfd) id haccept).1⟩

theorem failing (hw : w.Idle others listenFd n) (hfd : ¬(others fd = true ∨ fd = listenFd)) :
    Each World.handle (fun w e => e.AcceptsFresh w) w (failing fd) ∧
      ∃ w', Execution.run World.handle w (failing fd) = some w' ∧ w'.Idle others listenFd (n + 1) := by
  obtain ⟨haccept, hw₁⟩ := hw.accept hfd
  have hclose : (w.accept fd).handle (.event fd epollErr quiet) = some _ :=
    handle_eq_some.mpr (Server.processEvent_err hw₁.toTables accept_serves)
  have hearly : ¬(Event.event fd epollErr quiet).ClosesEarly (w.accept fd) := fun h => h.1 (by decide)
  obtain ⟨hw₂, -⟩ := hw₁.handle (e := .event fd epollErr quiet) trivial hearly hclose
  refine ⟨?_, _, ?_, hw₂, ?_, ?_⟩
  · refine each_cons.mpr ⟨hw.isOpen_false hfd, fun t _ => each_cons.mpr ⟨trivial, fun _ _ => each_nil⟩⟩
  · simp only [EdgeTriggered.failing, Execution.run, haccept, Option.bind_some, hclose]
  · refine Std.TreeMap.isEmpty_iff_forall_not_mem.mpr fun fd' hfd' => ?_
    have hmem : fd' ∈ (w.conns.insert fd (w.nextConnId + 1)).erase fd := hfd'
    obtain ⟨hne, hmem⟩ := mem_erase_iff.mp hmem
    exact hw.not_mem_conns fd' ((mem_insert_iff.mp hmem).resolve_left hne)
  · show w.nextConnId + 1 = UInt64.ofNat (n + 1)
    rw [hw.nextConnId, UInt64.ofNat_add]
    rfl

theorem start (others : Fd → Bool) (listenFd : Fd) : (listening others listenFd).Idle others listenFd 0 where
  toRunning := Running.start others listenFd
  conns := by simp [listening]
  nextConnId := rfl

end World.Idle

/-- The connections come one behind the other. -/
theorem exists_idle (others : Fd → Bool) (listenFd fd : Fd) (hfd : ¬(others fd = true ∨ fd = listenFd)) (n : Nat) :
    Each World.handle (fun w e => e.AcceptsFresh w) (World.listening others listenFd)
        (List.replicate n (failing fd)).flatten ∧
      ∃ w, run World.handle (World.listening others listenFd) (List.replicate n (failing fd)).flatten = some w ∧
        w.Idle others listenFd n := by
  induction n with
  | zero => exact ⟨each_nil, _, rfl, World.Idle.start others listenFd⟩
  | succ n ih =>
    obtain ⟨hfresh, w, hrun, hw⟩ := ih
    obtain ⟨hnext, w', hrun', hw'⟩ := hw.failing hfd
    rw [List.replicate_succ', List.flatten_append, List.flatten_singleton, each_append, run_append, hrun]
    refine ⟨⟨hfresh, fun t ht => ?_⟩, w', hrun', hw'⟩
    cases ht
    exact hnext

/-- Two connections, of which the peer of the second one closes its end at once, which is reported with `EPOLLERR`. -/
def crossed (fd fd' : Fd) : List Event := [.newConnection fd, .newConnection fd', .event fd' 13 hangup]

/-- Where the first connection gets the id 0, the `EPOLLERR` of the second one closes it. -/
theorem World.Idle.crossed {n : Nat} {fd' : Fd} (hw : w.Idle others listenFd n) (hzero : w.nextConnId + 1 = 0)
    (hfd : ¬(others fd = true ∨ fd = listenFd)) (hfd' : ¬(others fd' = true ∨ fd' = listenFd)) (hne : fd' ≠ fd) :
    Each World.handle (fun w e => e.AcceptsFresh w) w (crossed fd fd') ∧
      ∃ w', Execution.run World.handle w (crossed fd fd') = some w' ∧ w'.Orphaned fd' := by
  obtain ⟨haccept, hw₁⟩ := hw.accept hfd
  have hconns : fd' ∉ (w.accept fd).conns := fun hmem => (mem_insert_iff.mp hmem).elim hne (hw.not_mem_conns fd')
  have hsessions : (w.accept fd).nextConnId + 1 ∉ (w.accept fd).sessions := by
    intro hmem
    have hmem' : w.nextConnId + 1 + 1 ∈ w.sessions.insert (w.nextConnId + 1) w.objects.length := hmem
    rw [hzero] at hmem'
    exact (mem_insert_iff.mp hmem').elim (by decide) (hw.not_mem_sessions _)
  have hopen : (w.accept fd).isOpen fd' = false :=
    Bool.eq_false_iff.mpr fun hopen => hconns (((hw₁.isOpen fd').mp hopen).resolve_left hfd')
  have haccept' := handle_accept hconns hsessions
  obtain ⟨hw₂, -⟩ := hw₁.handle (e := .newConnection fd') hopen id haccept'
  have hserves : ((w.accept fd).accept fd').Serves fd' _ _ _ := accept_serves
  have hid : (w.accept fd).nextConnId + 1 = 1 := by
    show w.nextConnId + 1 + 1 = 1
    rw [hzero]
    decide
  have hmem : 0 ∈ ((w.accept fd).accept fd').sessions := by
    refine mem_insert_iff.mpr (.inr (mem_insert_iff.mpr (.inl ?_)))
    exact hzero.symm
  have howed : (reversedSentences []).length ≤ 0 := by decide
  have hearly : (Event.event fd' 13 hangup).ClosesEarly ((w.accept fd).accept fd') :=
    ⟨by decide, by decide, _, _, _, hserves.conn, hserves.session, hserves.object, .inr ⟨by decide, rfl⟩, howed⟩
  have hcalls : hangup.Proceed 13 { id := (w.accept fd).nextConnId + 1, connHandler := { fd := fd' } } :=
    EventCalls.proceed (fun _ => by simp [hangup]) (fun _ => by simp [hangup])
  have hkept := Running.kept others listenFd fun _ => True
  obtain ⟨w₃, hevent⟩ :=
    Server.processEvent_zero hkept ⟨hw₂, fun _ _ => trivial⟩ hserves hcalls (by rw [hid]; decide) hmem hearly
  have horphan := Server.processEvent_closesEarly hkept ⟨hw₂, fun _ _ => trivial⟩ hserves hcalls hearly hevent
  refine ⟨?_, w₃, ?_, horphan⟩
  · refine each_cons.mpr ⟨hw.isOpen_false hfd, fun t ht => ?_⟩
    cases ht.symm.trans haccept
    exact each_cons.mpr ⟨hopen, fun _ _ => each_cons.mpr ⟨trivial, fun _ _ => each_nil⟩⟩
  · have hhandle : ((w.accept fd).accept fd').handle (.event fd' 13 hangup) = some w₃ := handle_eq_some.mpr hevent
    simp only [EdgeTriggered.crossed, Execution.run, haccept, haccept', Option.bind_some, hhandle]

end Wrap

/-- The two connections behind 2 ^ 64 - 1 others. -/
def wrapped : List Event := (List.replicate (2 ^ 64 - 1) (failing 5)).flatten ++ crossed 6 5

/-- The first of the two has the id 0, and the entry of the second one stays. -/
theorem not_releases_wrapped :
    Each World.handle (fun w e => e.AcceptsFresh w) (World.listening (fun _ => false) 3) wrapped ∧
    ∃ w, run World.handle (World.listening (fun _ => false) 3) wrapped = some w ∧ ¬w.Releases 3 (accepted wrapped) := by
  have h5 : ¬(false = true ∨ (5 : Fd) = 3) := by decide
  have h6 : ¬(false = true ∨ (6 : Fd) = 3) := by decide
  obtain ⟨hfresh, w, hrun, hw⟩ := exists_idle (fun _ => false) 3 5 h5 (2 ^ 64 - 1)
  have hzero : w.nextConnId + 1 = 0 := by
    rw [hw.nextConnId]
    decide
  obtain ⟨hlast, w', hrun', horphan⟩ := hw.crossed hzero h6 h5 (by decide)
  rw [wrapped, each_append, run_append, hrun]
  refine ⟨⟨hfresh, fun t ht => ?_⟩, w', hrun', ?_⟩
  · cases ht
    exact hlast
  · rintro ⟨n, w'', closed, hrelease, -⟩
    exact Server.release_orphaned [] horphan (w'', closed) hrelease

end EdgeTriggered
