import CppProgramming.EdgeTriggered.Sentences

/-! # Events

`ProcessEvent` looks the descriptor up once for each bit of the mask, with a lookup that adds a missing entry. A
`CanWrite` that closes the session takes the descriptor out of `conns`; an `EPOLLERR` in the same mask then makes an
entry for a session that does not exist. -/

namespace EdgeTriggered
open Execution

/-- A call of `ProcessNewConnection` or of `ProcessEvent`. -/
inductive Event where
  | newConnection (fd : Fd)
  | connectionFails (failure : AcceptFailure)
  | event (fd : Fd) (eventMask : UInt32) (calls : EventCalls)

/-- The call. -/
def Event.exec : Event → Exec Unit
  | .newConnection fd => Server.processNewConnection (.ok fd)
  | .connectionFails failure => Server.processNewConnection (.error failure)
  | .event fd eventMask calls => Server.processEvent fd eventMask calls

/-- The world that a call leaves, also where it throws. -/
def worldAfter : EStateM.Result Error World Unit → World
  | .ok _ w => w
  | .error _ w => w

/-- The world after a call that returns. -/
def World.handle (w : World) (e : Event) : Option World :=
  match e.exec.run w with
  | .ok _ w' => some w'
  | .error _ _ => none

/-- `accept` returns a descriptor that is not open; an event is for a descriptor of the epoll set, and its system
    calls do not fail other than with `EAGAIN`. -/
def Event.IsPossible (w : World) : Event → Prop
  | .newConnection fd => w.isOpen fd = false
  | .connectionFails _ => True
  | .event fd _ calls => w.registered fd = true ∧ calls.read.Succeeds ∧ calls.readWrite.Succeeds ∧ calls.write.Succeeds

/-- The call leaves tables that agree, and `ProcessEvent` does not throw. -/
def Event.KeepsTables (w : World) (e : Event) : Prop :=
  (worldAfter (e.exec.run w)).Agree ∧
    ∀ fd eventMask calls, e = .event fd eventMask calls → ∃ w', e.exec.run w = .ok () w'

/-- What a mask with `EPOLLIN` adds to the stream. -/
def EventCalls.text (calls : EventCalls) (eventMask : UInt32) : ByteString :=
  if eventMask &&& epollIn ≠ 0 then calls.read.text else []

/-- The mask has both `EPOLLOUT` and `EPOLLERR`, the peer's end of file is known or comes with its `EPOLLIN`, and the
    kernel takes all that the session still owes. -/
def Event.ClosesEarly (w : World) : Event → Prop
  | .newConnection _ | .connectionFails _ => False
  | .event fd eventMask calls => eventMask &&& epollOut ≠ 0 ∧ eventMask &&& epollErr ≠ 0 ∧
      ∃ (id : ConnId) (p : SessionPtr) (s : Session),
        w.conns[fd]? = some id ∧ w.sessions[id]? = some p ∧ w.objects[p]? = some s ∧
        (s.connHandler.isEof = true ∨ eventMask &&& epollIn ≠ 0 ∧ calls.read.stop = .eof) ∧
        (reversedSentences (s.wire.received ++ calls.text eventMask)).length ≤ s.wire.accepted.length + calls.write.total

namespace Server
variable {w : World} {fd : Fd} {eventMask : UInt32} {calls : EventCalls}

/-- The three parts of `ProcessEvent`. -/
def onIn (fd : Fd) (eventMask : UInt32) (calls : EventCalls) : Exec Unit := do
  if eventMask &&& epollIn ≠ 0 then SessionManager.canRead (← connAt fd) calls.read calls.readWrite

/-- `if (eventMask & EPOLLOUT)`. -/
def onOut (fd : Fd) (eventMask : UInt32) (calls : EventCalls) : Exec Unit := do
  if eventMask &&& epollOut ≠ 0 then SessionManager.canWrite (← connAt fd) calls.write

/-- `if (eventMask & EPOLLERR)`. -/
def onErr (fd : Fd) (eventMask : UInt32) : Exec Unit := do
  if eventMask &&& epollErr ≠ 0 then SessionManager.errorOccurred (← connAt fd)

theorem processEvent_run (h : fd ∈ w.conns) : (processEvent fd eventMask calls).run w =
    (do onIn fd eventMask calls; onOut fd eventMask calls; onErr fd eventMask).run w := by
  have hc : w.conns.contains fd = true := h
  simp only [processEvent, get_bind, hc, Bool.not_true, Bool.false_eq_true, if_false, onIn, onOut, onErr]
  split <;> split <;> simp only [bind_assoc, pure_bind]

theorem processEvent_none (h : fd ∉ w.conns) : (processEvent fd eventMask calls).run w = .error .fdNotExist w := by
  have hc : w.conns.contains fd = false := Bool.eq_false_iff.mpr h
  rw [processEvent, get_bind]
  simp only [hc, Bool.not_false, if_true, throw_bind]

theorem connAt_run {id : ConnId} (h : w.conns[fd]? = some id) : (connAt fd).run w = .ok id w := by
  have hc : w.conns.contains fd = true := mem_iff_getElem?.mpr ⟨id, h⟩
  simp [connAt, hc, Std.TreeMap.getD_eq_getD_getElem?, h]

theorem connAt_new (h : w.conns[fd]? = none) :
    (connAt fd).run w = .ok 0 { w with conns := w.conns.insert fd 0 } := by
  have hc : w.conns.contains fd = false := by
    rw [Std.TreeMap.contains_eq_isSome_getElem?, h]
    rfl
  simp [connAt, hc, Std.TreeMap.getD_eq_getD_getElem?]

end Server

/-! ### The parts of an event -/

/-- The tables lead from the descriptor `fd` to the session `s`. -/
structure World.Serves (w : World) (fd : Fd) (id : ConnId) (p : SessionPtr) (s : Session) : Prop where
  conn : w.conns[fd]? = some id
  session : w.sessions[id]? = some p
  object : w.objects[p]? = some s

/-- The session once the `EPOLLIN` of a mask is dealt with. -/
def Session.afterIn (s : Session) (eventMask : UInt32) (calls : EventCalls) : Session :=
  if eventMask &&& epollIn ≠ 0 then
    s.afterRead calls.read.text (s.connHandler.isEof || calls.read.stop == .eof)
  else s

/-- What the calls for a session keep, with tables in which they find it. -/
structure World.Kept (I : World → Prop) : Prop where
  tables : ∀ w, I w → w.Tables
  faithful : ∀ w, I w → ∀ s ∈ w.objects, s.Faithful
  step : ∀ w call w', I w → (∀ fd, call ≠ .newConnection fd) → w.step call = some w' → I w'

theorem World.good_kept : World.Kept World.Good where
  tables _ hw := hw.toInv.tables
  faithful _ hw := hw.faithful
  step _ _ _ hw _ hstep := hw.step hstep

section Parts
variable {w : World} {fd : Fd} {id : ConnId} {p : SessionPtr} {s : Session} {eventMask : UInt32} {calls : EventCalls}
  {I : World → Prop}

theorem World.Tables.exists_serves (h : w.Tables) (hfd : fd ∈ w.conns) : ∃ id p s, w.Serves fd id p s := by
  obtain ⟨id, hid⟩ := mem_iff_getElem?.mp hfd
  obtain ⟨p, s, hp, hs, -⟩ := h.conn fd id hid
  exact ⟨id, p, s, hid, hp, hs⟩

theorem World.Tables.serves_fd (h : w.Tables) (hs : w.Serves fd id p s) : s.connHandler.fd = fd := by
  obtain ⟨q, t, hq, ht, hfd⟩ := h.conn fd id hs.conn
  obtain rfl := Option.some.inj (hq.symm.trans hs.session)
  obtain rfl := Option.some.inj (ht.symm.trans hs.object)
  exact hfd

theorem World.Serves.put (h : w.Serves fd id p s) (s' : Session) : (w.put p s').Serves fd id p s' where
  conn := h.conn
  session := h.session
  object := by
    obtain ⟨hp, -⟩ := List.getElem?_eq_some_iff.mp h.object
    rw [objects_put hp, if_pos rfl]

namespace Session

theorem afterIn_received : (s.afterIn eventMask calls).wire.received = s.wire.received ++ calls.text eventMask := by
  unfold afterIn EventCalls.text
  split
  · rfl
  · exact (List.append_nil _).symm

theorem afterIn_accepted : (s.afterIn eventMask calls).wire.accepted = s.wire.accepted := by
  unfold afterIn
  split <;> rfl

theorem afterIn_isEof : (s.afterIn eventMask calls).connHandler.isEof = true ↔
    s.connHandler.isEof = true ∨ eventMask &&& epollIn ≠ 0 ∧ calls.read.stop = .eof := by
  unfold afterIn
  split
  · next h => simp [afterRead, h]
  · next h => simp [h]

theorem Faithful.output_length (h : s.Faithful) :
    s.wire.accepted.length + s.output.length = (reversedSentences s.wire.received).length := by
  rw [← h.output, List.length_append]

end Session

theorem Server.onIn_run (eventMask : UInt32) (hI : World.Kept I) (hw : I w) (hs : w.Serves fd id p s)
    (hread : eventMask &&& epollIn ≠ 0 → calls.read.Succeeds) :
    (onIn fd eventMask calls).run w = .ok () (w.put p (s.afterIn eventMask calls)) ∧
      I (w.put p (s.afterIn eventMask calls)) := by
  unfold onIn Session.afterIn
  split
  · next hmask =>
    have hidle := (hI.tables w hw).idle s (List.mem_of_getElem? hs.object)
    have hrun : (SessionManager.canRead id calls.read calls.readWrite).run w = _ :=
      SessionManager.canRead_ok hs.session hs.object hidle.2 (hread hmask)
    have hstep : w.step (.canRead id calls.read calls.readWrite) = some _ := World.step_eq_some.mpr hrun
    exact ⟨by rw [bind_ok (connAt_run hs.conn), hrun], hI.step w _ _ hw (fun _ h => by cases h) hstep⟩
  · rw [World.put_self hs.object]
    exact ⟨pure_run, hw⟩

/-- `EPOLLOUT` leaves the session, or closes it. -/
theorem Server.onOut_run (eventMask : UInt32) (hI : World.Kept I) (hw : I w) (hs : w.Serves fd id p s)
    (hwrite : eventMask &&& epollOut ≠ 0 → s.output.length ≤ calls.write.total ∨ calls.write.stop = .again) :
    (∃ s', (onOut fd eventMask calls).run w = .ok () (w.put p s') ∧ I (w.put p s') ∧
      ¬(eventMask &&& epollOut ≠ 0 ∧ s.connHandler.isEof = true ∧ s.output.length ≤ calls.write.total)) ∨
    (∃ w', (onOut fd eventMask calls).run w = .ok () w' ∧ I w' ∧ w'.conns[fd]? = none ∧
      w'.sessions = w.sessions.erase id ∧ eventMask &&& epollOut ≠ 0 ∧ s.connHandler.isEof = true ∧
        s.output.length ≤ calls.write.total) := by
  have htables := hI.tables w hw
  unfold onOut
  split
  · next hmask =>
    obtain ⟨t, ht, hsid, hclosed, -, hreg, hopen⟩ := htables.entry id p hs.session
    obtain rfl := Option.some.inj (ht.symm.trans hs.object)
    have hfd := htables.serves_fd hs
    by_cases hclose : t.connHandler.isEof = true ∧ t.output.length ≤ calls.write.total
    · have hrun := SessionManager.canWrite_closes hs.session hs.object hclose.1 hclose.2 hsid hclosed hreg hopen
      have hstep : w.step (.canWrite id calls.write) = some _ := World.step_eq_some.mpr hrun
      have hkept := hI.step w _ _ hw (fun _ h => by cases h) hstep
      refine .inr ⟨_, by rw [bind_ok (connAt_run hs.conn), hrun], hkept, ?_, rfl, hmask, hclose⟩
      show (w.conns.erase t.connHandler.fd)[fd]? = none
      rw [getElem?_erase_iff, if_pos hfd.symm]
    · have hrun := SessionManager.canWrite_stays hs.session hs.object (hwrite hmask) hclose
      have hstep : w.step (.canWrite id calls.write) = some _ := World.step_eq_some.mpr hrun
      have hkept := hI.step w _ _ hw (fun _ h => by cases h) hstep
      exact .inl ⟨_, by rw [bind_ok (connAt_run hs.conn), hrun], hkept, fun hc => hclose hc.2⟩
  · next hmask =>
    refine .inl ⟨s, ?_, ?_, fun hc => hmask hc.1⟩
    · rw [World.put_self hs.object, pure_run]
    · rwa [World.put_self hs.object]

/-- `EPOLLERR` closes a session that is still there. -/
theorem Server.onErr_run (hI : World.Kept I) (hw : I w) (hs : w.Serves fd id p s) :
    ∃ w', (onErr fd eventMask).run w = .ok () w' ∧ I w' := by
  have htables := hI.tables w hw
  unfold onErr
  split
  · obtain ⟨t, ht, hsid, hclosed, -, hreg, hopen⟩ := htables.entry id p hs.session
    obtain rfl := Option.some.inj (ht.symm.trans hs.object)
    have hrun := SessionManager.close_run hs.session hs.object hsid hclosed hreg hopen
    have hstep : w.step (.errorOccurred id) = some _ := World.step_eq_some.mpr hrun
    exact ⟨_, by rw [bind_ok (connAt_run hs.conn), hrun], hI.step w _ _ hw (fun _ h => by cases h) hstep⟩
  · exact ⟨w, pure_run, hw⟩

/-- The descriptor `fd` is in `conns`, and no session has it. -/
structure World.Orphaned (w : World) (fd : Fd) : Prop extends w.Sessions where
  mem : fd ∈ w.conns
  avoids : ∀ (id : ConnId) (p : SessionPtr) (s : Session), w.sessions[id]? = some p → w.objects[p]? = some s →
    s.connHandler.fd ≠ fd

theorem World.Orphaned.not_agree (h : w.Orphaned fd) : ¬w.Agree := by
  intro hagree
  obtain ⟨id, hid⟩ := mem_iff_getElem?.mp h.mem
  obtain ⟨p, hp⟩ := mem_iff_getElem?.mp ((hagree.ids id).mpr ⟨fd, hid⟩)
  obtain ⟨s, hs, hfds⟩ := hagree.fds id p hp
  exact h.avoids id p s hp hs ((hfds fd).mp hid)

theorem World.Orphaned.of_release (h : w.Orphaned fd) (hid : w.sessions[id]? = some p) (hs : w.objects[p]? = some s)
    {s' : Session} (hsessions : ((w.release s.connHandler.fd id).put p s').Sessions) :
    ((w.release s.connHandler.fd id).put p s').Orphaned fd where
  toSessions := hsessions
  mem := mem_erase_iff.mpr ⟨(h.avoids id p s hid hs).symm, h.mem⟩
  avoids id' q t hq ht := by
    obtain ⟨-, hq', hobject⟩ := h.toSessions.of_release hid hs hq
    exact h.avoids id' q t hq' (hobject.symm.trans ht)

theorem World.Orphaned.of_put (h : w.Orphaned fd) (hid : w.sessions[id]? = some p) (hs : w.objects[p]? = some s)
    {s' : Session} (hfd : s'.connHandler.fd = s.connHandler.fd) (hsessions : (w.put p s').Sessions) :
    (w.put p s').Orphaned fd where
  toSessions := hsessions
  mem := h.mem
  avoids id' q t hq ht := by
    obtain ⟨hlt, -⟩ := List.getElem?_eq_some_iff.mp hs
    rw [World.objects_put hlt] at ht
    split at ht
    · obtain rfl := Option.some.inj ht
      rw [hfd]
      exact h.avoids id p s hid hs
    · exact h.avoids id' q t hq ht

theorem World.Orphaned.of_accept (h : w.Orphaned fd) {fd' : Fd} (hfd : fd' ∉ w.conns) : (w.accept fd').Orphaned fd where
  toSessions := h.toSessions.accept hfd
  mem := mem_insert_iff.mpr (.inr h.mem)
  avoids id q t hq ht := by
    have hq' : (w.sessions.insert (w.nextConnId + 1) w.objects.length)[id]? = some q := hq
    rw [getElem?_insert_iff] at hq'
    split at hq'
    · obtain rfl := Option.some.inj hq'
      obtain rfl := Option.some.inj (World.accept_new.symm.trans ht)
      rintro rfl
      exact hfd h.mem
    · obtain ⟨s, hs, -⟩ := h.entry id q hq'
      obtain rfl := Option.some.inj ((World.accept_object hs).symm.trans ht)
      exact h.avoids id q s hq' hs

/-- A call that returns closes its session and no other, so the entry stays. -/
theorem World.Orphaned.step {call : Call} {w' : World} (h : w.Orphaned fd) (hstep : w.step call = some w') :
    w'.Orphaned fd := by
  have hcases := World.step_cases h.toSessions hstep
  have hsessions := h.toSessions.of_step hcases
  cases hcases with
  | accept hfd hid => exact h.of_accept hfd
  | read hp hs hstop => exact h.of_put hp hs rfl hsessions
  | write hp hs => exact h.of_put hp hs rfl hsessions
  | writeClose hp hs hall => exact h.of_release hp hs hsessions
  | close hcall hp hs => exact h.of_release hp hs hsessions

theorem World.Sessions.insert (h : w.Sessions) (hfd : fd ∉ w.conns) :
    { w with conns := w.conns.insert fd 0 }.Sessions where
  entry id p hp := by
    obtain ⟨s, hs, h1, h2, h3, h4⟩ := h.entry id p hp
    have hne : s.connHandler.fd ≠ fd := by
      rintro rfl
      exact hfd (h.mem_of_session hp hs)
    refine ⟨s, hs, h1, h2, ?_, h4⟩
    show (w.conns.insert fd 0)[s.connHandler.fd]? = some id
    rw [getElem?_insert_iff, if_neg hne, h3]
  idle := h.idle

/-- The lookup of a descriptor that has gone makes an entry that no session has. -/
theorem World.Sessions.orphaned_insert (h : w.Sessions) (hfd : fd ∉ w.conns) :
    { w with conns := w.conns.insert fd 0 }.Orphaned fd where
  toSessions := h.insert hfd
  mem := mem_insert_iff.mpr (.inl rfl)
  avoids id p s hp hs := by
    rintro rfl
    exact hfd (h.mem_of_session hp hs)

theorem World.Orphaned.insert {fd' : Fd} (h : w.Orphaned fd) (hfd : fd' ∉ w.conns) :
    { w with conns := w.conns.insert fd' 0 }.Orphaned fd where
  toSessions := h.toSessions.insert hfd
  mem := mem_insert_iff.mpr (.inr h.mem)
  avoids := h.avoids

/-- `EPOLLERR` for a descriptor that has gone throws, or closes the session with the id 0, for which it has made an
    entry. -/
theorem Server.onErr_gone (hw : w.Sessions) (hfd : w.conns[fd]? = none) (hmask : eventMask &&& epollErr ≠ 0) {w' : World}
    (hrun : (onErr fd eventMask).run w = .ok () w') : w'.Orphaned fd := by
  rw [onErr, if_pos hmask, bind_ok (connAt_new hfd)] at hrun
  have hno : fd ∉ w.conns := by
    rw [Std.TreeMap.mem_iff_isSome_getElem?, hfd]
    simp
  have hstep : { w with conns := w.conns.insert fd 0 }.step (.errorOccurred 0) = some w' := World.step_eq_some.mpr hrun
  exact (hw.orphaned_insert hno).step hstep

/-- With a session of the id 0 it returns. -/
theorem Server.onErr_zero (hw : w.Sessions) (hfd : w.conns[fd]? = none) (hzero : 0 ∈ w.sessions) :
    ∃ w', (onErr fd eventMask).run w = .ok () w' := by
  unfold onErr
  split
  · obtain ⟨p, hp⟩ := mem_iff_getElem?.mp hzero
    obtain ⟨s, hs, hsid, hclosed, -, hreg, hopen⟩ := hw.entry 0 p hp
    have hrun : (SessionManager.errorOccurred 0).run { w with conns := w.conns.insert fd 0 } = _ :=
      SessionManager.close_run hp hs hsid hclosed hreg hopen
    exact ⟨_, by rw [bind_ok (connAt_new hfd), hrun]⟩
  · exact ⟨w, pure_run⟩

/-- After `EPOLLIN`, the kernel takes all that is left exactly if it takes all that the session still owes. -/
theorem output_le_iff (hI : World.Kept I) (hw : I (w.put p (s.afterIn eventMask calls))) (hs : w.Serves fd id p s) :
    (s.afterIn eventMask calls).output.length ≤ calls.write.total ↔
      (reversedSentences (s.wire.received ++ calls.text eventMask)).length ≤
        s.wire.accepted.length + calls.write.total := by
  have hlength := (hI.faithful _ hw _ (List.mem_of_getElem? (hs.put _).object)).output_length
  rw [Session.afterIn_received, Session.afterIn_accepted] at hlength
  omega

/-- The reads and writes of an event do not fail. -/
structure EventCalls.Proceed (calls : EventCalls) (eventMask : UInt32) (s : Session) : Prop where
  read : eventMask &&& epollIn ≠ 0 → calls.read.Succeeds
  write : eventMask &&& epollOut ≠ 0 →
    (s.afterIn eventMask calls).output.length ≤ calls.write.total ∨ calls.write.stop = .again

theorem EventCalls.proceed (hread : calls.read.Succeeds) (hwrite : calls.write.Succeeds) :
    calls.Proceed eventMask s where
  read _ := hread
  write _ := by
    cases hstop : calls.write.stop with
    | again => exact .inr rfl
    | error code => exact absurd hstop (hwrite code)

theorem Server.proceed_of_ok (hI : World.Kept I) (hw : I w) {w' : World}
    (hrun : (processEvent fd eventMask calls).run w = .ok () w') :
    ∃ id p s, w.Serves fd id p s ∧ calls.Proceed eventMask s := by
  have hfd : fd ∈ w.conns := by
    by_contra hno
    rw [processEvent_none hno] at hrun
    cases hrun
  obtain ⟨id, p, s, hs⟩ := (hI.tables w hw).exists_serves hfd
  rw [processEvent_run hfd] at hrun
  have hread : eventMask &&& epollIn ≠ 0 → calls.read.Succeeds := by
    intro hmask code hcode
    have hin : (onIn fd eventMask calls).run w = .error (.read code) (w.put p { s with isReadable := true }) := by
      rw [onIn, if_pos hmask, bind_ok (connAt_run hs.conn), SessionManager.canRead_error hs.session hs.object hcode]
    rw [bind_error hin] at hrun
    cases hrun
  obtain ⟨hin, -⟩ := onIn_run eventMask hI hw hs hread
  rw [bind_ok hin] at hrun
  refine ⟨id, p, s, hs, hread, fun hmask => ?_⟩
  by_contra hno
  obtain ⟨hlt, hstop⟩ := not_or.mp hno
  have hs' := hs.put (s.afterIn eventMask calls)
  cases hcode : calls.write.stop with
  | again => exact hstop hcode
  | error code =>
    have herr := SessionManager.canWrite_error hs'.session hs'.object (Nat.lt_of_not_le hlt) hcode
    obtain ⟨w₁, hout⟩ : ∃ w₁, (onOut fd eventMask calls).run (w.put p (s.afterIn eventMask calls)) =
        .error (.write code) w₁ := by
      rw [onOut, if_pos hmask, bind_ok (connAt_run hs'.conn), herr]
      exact ⟨_, rfl⟩
    rw [bind_error hout] at hrun
    cases hrun

theorem Server.processEvent_ok (hI : World.Kept I) (hw : I w) (hs : w.Serves fd id p s)
    (hcalls : calls.Proceed eventMask s) (h : ¬(Event.event fd eventMask calls).ClosesEarly w) :
    ∃ w', (processEvent fd eventMask calls).run w = .ok () w' ∧ I w' := by
  obtain ⟨hin, hkept⟩ := onIn_run eventMask hI hw hs hcalls.read
  rw [processEvent_run (mem_iff_getElem?.mpr ⟨id, hs.conn⟩), bind_ok hin]
  rcases onOut_run eventMask hI hkept (hs.put _) hcalls.write with
    ⟨s', hout, hkept', -⟩ | ⟨w', hout, hkept', -, -, hmask, heof, hall⟩
  · rw [bind_ok hout]
    exact onErr_run hI hkept' ((hs.put _).put s')
  · -- The session is closed, so there is no `EPOLLERR` to come.
    have herr : ¬eventMask &&& epollErr ≠ 0 := fun herr =>
      h ⟨hmask, herr, id, p, s, hs.conn, hs.session, hs.object, Session.afterIn_isEof.mp heof,
        (output_le_iff hI hkept hs).mp hall⟩
    rw [bind_ok hout, onErr, if_neg herr]
    exact ⟨w', pure_run, hkept'⟩

/-- A call that closes early comes to its `EPOLLERR` without the session. -/
theorem Server.processEvent_early (hI : World.Kept I) (hw : I w) (hs : w.Serves fd id p s)
    (hcalls : calls.Proceed eventMask s) (h : (Event.event fd eventMask calls).ClosesEarly w) :
    eventMask &&& epollErr ≠ 0 ∧ ∃ w', (processEvent fd eventMask calls).run w = (onErr fd eventMask).run w' ∧ I w' ∧
      w'.conns[fd]? = none ∧ w'.sessions = w.sessions.erase id := by
  obtain ⟨hmask, herr, id', p', s', hconn, hsession, hobject, heof, hall⟩ := h
  obtain rfl := Option.some.inj (hs.conn.symm.trans hconn)
  obtain rfl := Option.some.inj (hs.session.symm.trans hsession)
  obtain rfl := Option.some.inj (hs.object.symm.trans hobject)
  obtain ⟨hin, hkept⟩ := onIn_run eventMask hI hw hs hcalls.read
  rw [processEvent_run (mem_iff_getElem?.mpr ⟨id, hconn⟩), bind_ok hin]
  rcases onOut_run eventMask hI hkept (hs.put _) hcalls.write with
    ⟨t, -, -, hopen⟩ | ⟨w', hout, hkept', hgone, hsessions, -⟩
  · exact absurd ⟨hmask, Session.afterIn_isEof.mpr heof, (output_le_iff hI hkept hs).mpr hall⟩ hopen
  · exact ⟨herr, w', bind_ok hout, hkept', hgone, hsessions⟩

theorem Server.processEvent_closesEarly (hI : World.Kept I) (hw : I w) (hs : w.Serves fd id p s)
    (hcalls : calls.Proceed eventMask s) (h : (Event.event fd eventMask calls).ClosesEarly w) {w' : World}
    (hrun : (processEvent fd eventMask calls).run w = .ok () w') : w'.Orphaned fd := by
  obtain ⟨herr, w₂, hearly, hkept, hgone, -⟩ := processEvent_early hI hw hs hcalls h
  rw [hearly] at hrun
  exact onErr_gone (hI.tables _ hkept).toSessions hgone herr hrun

/-- It returns when another session has the id 0. -/
theorem Server.processEvent_zero (hI : World.Kept I) (hw : I w) (hs : w.Serves fd id p s)
    (hcalls : calls.Proceed eventMask s) (hid : id ≠ 0) (hzero : 0 ∈ w.sessions)
    (h : (Event.event fd eventMask calls).ClosesEarly w) :
    ∃ w', (processEvent fd eventMask calls).run w = .ok () w' := by
  obtain ⟨-, w₂, hearly, hkept, hgone, hsessions⟩ := processEvent_early hI hw hs hcalls h
  have hzero₂ : 0 ∈ w₂.sessions := by
    rw [hsessions]
    exact mem_erase_iff.mpr ⟨hid.symm, hzero⟩
  rw [hearly]
  exact onErr_zero (hI.tables _ hkept).toSessions hgone hzero₂

end Parts

/-! ### Sequences of events -/

section Sequences
variable {w w' : World} {e : Event}

theorem World.handle_eq_some : w.handle e = some w' ↔ e.exec.run w = .ok () w' := by
  unfold World.handle
  split
  · next a w'' h => rw [h, Option.some_inj, EStateM.Result.ok.injEq, and_iff_right rfl]
  · next err w'' h => simp [h]

theorem World.handle_accept {fd : Fd} (hconns : fd ∉ w.conns) (hsessions : w.nextConnId + 1 ∉ w.sessions) :
    w.handle (.newConnection fd) = some (w.accept fd) :=
  handle_eq_some.mpr (Server.processNewConnection_ok hconns hsessions)

theorem World.Agree.accept_error (h : w.Agree) (hconns : w'.conns = w.conns) (hsessions : w'.sessions = w.sessions)
    (hobjects : w'.objects = w.objects)
    (hopen : w'.isOpen = w.isOpen ∨ ∃ fd, w'.isOpen = Function.update w.isOpen fd true) : w'.Agree where
  ids := by
    rw [hsessions, hconns]
    exact h.ids
  fds := by
    rw [hsessions, hconns, hobjects]
    exact h.fds
  isOpen fd' hfd' := by
    rw [hconns] at hfd'
    have hold := h.isOpen fd' hfd'
    rcases hopen with heq | ⟨fd, heq⟩
    · rw [heq, hold]
    · rw [heq]
      by_cases hfd : fd' = fd
      · rw [hfd, Function.update_self]
      · rw [Function.update_of_ne hfd, hold]

theorem World.Good.processEvent_ok {fd : Fd} {eventMask : UInt32} {calls : EventCalls} (hw : w.Good)
    (hpossible : (Event.event fd eventMask calls).IsPossible w) (h : ¬(Event.event fd eventMask calls).ClosesEarly w) :
    ∃ w', (Server.processEvent fd eventMask calls).run w = .ok () w' ∧ w'.Good := by
  obtain ⟨hfd, hread, -, hwrite⟩ := hpossible
  obtain ⟨id, p, s, hs⟩ := hw.toInv.tables.exists_serves ((hw.registered fd).mp hfd)
  exact Server.processEvent_ok good_kept hw hs (EventCalls.proceed hread hwrite) h

theorem World.Good.handle (hw : w.Good) (hpossible : e.IsPossible w) (h : ¬e.ClosesEarly w)
    (hrun : w.handle e = some w') : w'.Good := by
  cases e with
  | newConnection fd =>
    have hstep : w.step (.newConnection fd) = some w' := step_eq_some.mpr (handle_eq_some.mp hrun)
    exact hw.step hstep
  | connectionFails failure =>
    obtain ⟨err, w'', hfails, -⟩ := Server.processNewConnection_fails (w := w) failure
    rw [handle_eq_some, Event.exec, hfails] at hrun
    cases hrun
  | event fd eventMask calls =>
    obtain ⟨w'', hok, hgood⟩ := hw.processEvent_ok hpossible h
    rw [handle_eq_some, Event.exec, hok] at hrun
    cases hrun
    exact hgood

theorem Event.keepsTables_iff (hw : w.Good) (hpossible : e.IsPossible w) : e.KeepsTables w ↔ ¬e.ClosesEarly w := by
  constructor
  · rintro ⟨hagree, hok⟩ h
    cases e with
    | newConnection fd => exact h
    | connectionFails failure => exact h
    | event fd eventMask calls =>
      obtain ⟨w', hrun⟩ := hok fd eventMask calls rfl
      rw [hrun] at hagree
      obtain ⟨hfd, hread, -, hwrite⟩ := hpossible
      obtain ⟨id, p, s, hs⟩ := hw.toInv.tables.exists_serves ((hw.registered fd).mp hfd)
      have horphan := Server.processEvent_closesEarly World.good_kept hw hs (EventCalls.proceed hread hwrite) h hrun
      exact horphan.not_agree hagree
  · intro h
    cases e with
    | newConnection fd =>
      refine ⟨?_, fun fd' eventMask calls heq => by cases heq⟩
      by_cases hok : fd ∉ w.conns ∧ w.nextConnId + 1 ∉ w.sessions
      · rw [Event.exec, Server.processNewConnection_ok hok.1 hok.2]
        exact (hw.toInv.of_step (.accept hok.1 hok.2)).agree
      · obtain ⟨err, w', hrun, hconns, hsessions, hobjects, hopen⟩ := Server.processNewConnection_error hok
        rw [Event.exec, hrun]
        exact hw.toInv.agree.accept_error hconns hsessions hobjects (.inr ⟨fd, hopen⟩)
    | connectionFails failure =>
      refine ⟨?_, fun fd' eventMask calls heq => by cases heq⟩
      obtain ⟨err, w', hrun, hconns, hsessions, hobjects, hopen⟩ := Server.processNewConnection_fails (w := w) failure
      rw [Event.exec, hrun]
      exact hw.toInv.agree.accept_error hconns hsessions hobjects hopen
    | event fd eventMask calls =>
      obtain ⟨w', hrun, hgood⟩ := hw.processEvent_ok hpossible h
      refine ⟨?_, fun _ _ _ _ => ⟨w', hrun⟩⟩
      rw [Event.exec, hrun]
      exact hgood.toInv.agree

end Sequences

/-- Along a sequence of events the tables agree after every call and `ProcessEvent` does not throw, if and only if no
    mask with `EPOLLERR` comes to a session that its `EPOLLOUT` closes. -/
theorem keepsTables_iff_not_closesEarly (isOpen : Fd → Bool) (events : List Event)
    (hpossible : Each World.handle (fun w e => e.IsPossible w) (World.start isOpen) events) :
    Each World.handle (fun w e => e.KeepsTables w) (World.start isOpen) events ↔
      Each World.handle (fun w e => ¬e.ClosesEarly w) (World.start isOpen) events :=
  each_iff_each (fun _ _ _ hw hp hc hrun => World.Good.handle hw hp hc hrun) (fun _ _ => Event.keepsTables_iff)
    (World.start_good isOpen) hpossible

theorem isPossible_first (eventMask : UInt32) {calls : EventCalls} (hread : calls.read.Succeeds)
    (hreadWrite : calls.readWrite.Succeeds) (hwrite : calls.write.Succeeds) :
    Each World.handle (fun w e => e.IsPossible w) (World.start fun _ => false)
      [.newConnection 5, .event 5 eventMask calls] := by
  refine each_cons.mpr ⟨rfl, fun w hw => each_cons.mpr ⟨?_, fun _ _ => each_nil⟩⟩
  rw [World.handle_accept (by simp [World.start]) (by simp [World.start])] at hw
  cases hw
  exact ⟨rfl, hread, hreadWrite, hwrite⟩

theorem keepsTables_iff_not_closesEarly_first :
    Each World.handle (fun w e => e.IsPossible w) (World.start fun _ => false)
      [.newConnection 5, .event 5 5 ⟨⟨[[97, 46]], .again⟩, ⟨[], .again⟩, ⟨[3], .again⟩⟩] ∧
    (Each World.handle (fun w e => e.KeepsTables w) (World.start fun _ => false)
      [.newConnection 5, .event 5 5 ⟨⟨[[97, 46]], .again⟩, ⟨[], .again⟩, ⟨[3], .again⟩⟩] ↔
    Each World.handle (fun w e => ¬e.ClosesEarly w) (World.start fun _ => false)
      [.newConnection 5, .event 5 5 ⟨⟨[[97, 46]], .again⟩, ⟨[], .again⟩, ⟨[3], .again⟩⟩]) := by
  have hpossible : Each World.handle (fun w e => e.IsPossible w) (World.start fun _ => false)
      [.newConnection 5, .event 5 5 ⟨⟨[[97, 46]], .again⟩, ⟨[], .again⟩, ⟨[3], .again⟩⟩] :=
    isPossible_first 5 (fun _ => by simp) (fun _ => by simp) (fun _ => by simp)
  exact ⟨hpossible, keepsTables_iff_not_closesEarly _ _ hpossible⟩

/-- A peer that closes its end at once, reported with `EPOLLIN`, `EPOLLOUT` and `EPOLLERR` in one mask. -/
theorem processEvent_throws :
    Each World.handle (fun w e => e.IsPossible w) (World.start fun _ => false)
      [.newConnection 5, .event 5 13 ⟨⟨[], .eof⟩, ⟨[], .again⟩, ⟨[], .again⟩⟩] ∧
    ¬Each World.handle (fun w e => e.KeepsTables w) (World.start fun _ => false)
      [.newConnection 5, .event 5 13 ⟨⟨[], .eof⟩, ⟨[], .again⟩, ⟨[], .again⟩⟩] := by
  refine ⟨isPossible_first 13 (fun _ => by simp) (fun _ => by simp) (fun _ => by simp), fun h => ?_⟩
  have hnew : (World.start fun _ => false).handle (.newConnection 5) = some ((World.start fun _ => false).accept 5) :=
    World.handle_accept (by simp [World.start]) (by simp [World.start])
  obtain ⟨-, hok⟩ := (each_cons.mp ((each_cons.mp h).2 _ hnew)).1
  obtain ⟨w, hw⟩ := hok 5 13 _ rfl
  have hnone : (((World.start fun _ => false).accept 5).handle
      (.event 5 13 ⟨⟨[], .eof⟩, ⟨[], .again⟩, ⟨[], .again⟩⟩)).isNone = true := by
    decide +kernel
  rw [World.handle_eq_some.mpr hw] at hnone
  cases hnone

end EdgeTriggered
