import CppProgramming.EdgeTriggered.Server

/-! # What the calls do

The loops over the system calls have closed forms, and every call of the session manager changes one session object
in a way that does not depend on the others. `World.put` sets a session object; the code of a session is run on
worlds in which its own object has just been set. -/

namespace EdgeTriggered

/-! ### The loops -/

/-- The string that `ConnHandler::Read` returns. -/
def ReadCalls.text (calls : ReadCalls) : ByteString := calls.chunks.flatten

/-- No call of `read` fails other than with `EAGAIN`. -/
def ReadCalls.Succeeds (calls : ReadCalls) : Prop := ∀ code, calls.stop ≠ .error code

/-- No call of `write` fails other than with `EAGAIN`. -/
def WriteCalls.Succeeds (calls : WriteCalls) : Prop := ∀ code, calls.stop ≠ .error code

/-- How much the calls of `write` take at most. -/
def WriteCalls.total (calls : WriteCalls) : Nat := calls.room.sum

theorem ConnHandler.readLoop_ok {stop : ReadStop} (hstop : ∀ code, stop ≠ .error code) (isEof : Bool) (s : ByteString)
    (chunks : List ByteString) : readLoop stop isEof s chunks = .ok (s ++ chunks.flatten, isEof || stop == .eof) := by
  induction chunks generalizing s with
  | nil =>
    cases stop with
    | eof => simp [readLoop]
    | again => simp [readLoop]
    | error code => exact absurd rfl (hstop code)
  | cons chunk chunks ih => rw [readLoop, ih, List.flatten_cons, List.append_assoc]

theorem ConnHandler.readLoop_error (code : Int) (isEof : Bool) (s : ByteString) (chunks : List ByteString) :
    readLoop (.error code) isEof s chunks = .error (.read code) := by
  induction chunks generalizing s with
  | nil => rfl
  | cons chunk chunks ih => rw [readLoop, ih]

/-- The history of a connection after `write` took `s`. -/
def Wire.accept (wire : Wire) (s : ByteString) : Wire := { wire with accepted := wire.accepted ++ s }

theorem ConnHandler.writeLoop_all {stop : WriteStop} {room : List Nat} {s : ByteString} (h : s.length ≤ room.sum)
    (wire : Wire) : writeLoop stop room s wire = (wire.accept s, .ok []) := by
  induction room generalizing s wire with
  | nil =>
    obtain rfl := List.length_eq_zero_iff.mp (Nat.le_zero.mp h)
    simp [writeLoop, Wire.accept]
  | cons n room ih =>
    cases s with
    | nil => simp [writeLoop, Wire.accept]
    | cons b s =>
      have hdrop : ((b :: s).drop n).length ≤ room.sum := by
        rw [List.length_drop]
        rw [List.sum_cons] at h
        omega
      rw [writeLoop, ih hdrop]
      · simp [Wire.accept, List.take_append_drop]
      · exact List.cons_ne_nil _ _

theorem ConnHandler.writeLoop_cons {stop : WriteStop} {n : Nat} {room : List Nat} {s : ByteString} (hs : s ≠ [])
    (wire : Wire) : writeLoop stop (n :: room) s wire = writeLoop stop room (s.drop n) (wire.accept (s.take n)) := by
  rw [writeLoop]
  · rfl
  · exact hs

theorem ConnHandler.writeLoop_again {room : List Nat} {s : ByteString} (h : room.sum < s.length) (wire : Wire) :
    writeLoop .again room s wire =
      ({ wire.accept (s.take room.sum) with isReady := false }, .ok (s.drop room.sum)) := by
  induction room generalizing s wire with
  | nil =>
    obtain ⟨b, s, rfl⟩ := List.exists_cons_of_length_pos (Nat.lt_of_le_of_lt (Nat.zero_le _) h)
    simp [writeLoop, Wire.accept]
  | cons n room ih =>
    rw [List.sum_cons] at h
    have hs : s ≠ [] := List.ne_nil_of_length_pos (by omega)
    rw [writeLoop_cons hs, ih (by rw [List.length_drop]; omega), List.sum_cons]
    simp [Wire.accept, List.take_add, List.drop_drop]

theorem ConnHandler.writeLoop_error {room : List Nat} {s : ByteString} (h : room.sum < s.length) (code : Int)
    (wire : Wire) : writeLoop (.error code) room s wire = (wire.accept (s.take room.sum), .error (.write code)) := by
  induction room generalizing s wire with
  | nil =>
    obtain ⟨b, s, rfl⟩ := List.exists_cons_of_length_pos (Nat.lt_of_le_of_lt (Nat.zero_le _) h)
    simp [writeLoop, Wire.accept]
  | cons n room ih =>
    rw [List.sum_cons] at h
    have hs : s ≠ [] := List.ne_nil_of_length_pos (by omega)
    rw [writeLoop_cons hs, ih (by rw [List.length_drop]; omega), List.sum_cons]
    simp [Wire.accept, List.take_add]

/-! ### Session objects -/

/-- Sets the session object at `p`. -/
def World.put (w : World) (p : SessionPtr) (s : Session) : World := { w with objects := w.objects.set p s }

namespace World
variable {w : World} {p : SessionPtr} {s : Session}

theorem put_self (h : w.objects[p]? = some s) : w.put p s = w := by
  obtain ⟨hlt, rfl⟩ := List.getElem?_eq_some_iff.mp h
  simp [put]

end World

/-! ### Running code -/

section Run
variable {σ α β : Type} {x : EStateM Error σ α} {f : α → EStateM Error σ β} {w w' : σ} {a : α} {e : Error}

theorem bind_ok (h : x.run w = .ok a w') : (x >>= f).run w = (f a).run w' := by
  rw [EStateM.run] at h
  simp only [EStateM.run, bind, EStateM.bind, h]

theorem bind_error (h : x.run w = .error e w') : (x >>= f).run w = .error e w' := by
  rw [EStateM.run] at h
  simp only [EStateM.run, bind, EStateM.bind, h]

theorem exists_of_bind {b : β} (h : (x >>= f).run w = .ok b w') :
    ∃ a w₁, x.run w = .ok a w₁ ∧ (f a).run w₁ = .ok b w' := by
  cases hx : x.run w with
  | ok a w₁ => exact ⟨a, w₁, rfl, (bind_ok hx).symm.trans h⟩
  | error e w₁ => cases (bind_error hx).symm.trans h

@[simp] theorem pure_run : (pure a : EStateM Error σ α).run w = .ok a w := rfl
@[simp] theorem throw_run : (throw e : EStateM Error σ α).run w = .error e w := rfl
@[simp] theorem throw_bind : ((throw e : EStateM Error σ α) >>= f).run w = .error e w := rfl
@[simp] theorem modify_run {g : σ → σ} : (modify g : EStateM Error σ Unit).run w = .ok () (g w) := rfl
@[simp] theorem get_bind {g : σ → EStateM Error σ β} : (get >>= g).run w = (g w).run w := rfl
@[simp] theorem modify_bind {g : σ → σ} {k : Unit → EStateM Error σ β} :
    ((modify g : EStateM Error σ Unit) >>= k).run w = (k ()).run (g w) := rfl

end Run

namespace Session
variable {w : World} {p : SessionPtr} {s : Session}

theorem this_put (hp : p < w.objects.length) : (this p).run (w.put p s) = .ok s (w.put p s) := by
  simp [this, World.put, hp]

theorem assign_put (hp : p < w.objects.length) (f : Session → Session) :
    (assign p f).run (w.put p s) = .ok () (w.put p (f s)) := by
  have hmod : (w.objects.set p s).modify p f = w.objects.set p (f s) := by
    apply List.ext_getElem?
    intro i
    by_cases hi : p = i
    · subst hi
      simp [hp]
    · simp [hi]
  simp [assign, World.put, hmod]

end Session

/-! ### Closing -/

/-- The connection `fd` is gone. -/
def World.disconnect (w : World) (fd : Fd) : World :=
  { w with
    registered := Function.update w.registered fd false
    isOpen := Function.update w.isOpen fd false
    conns := w.conns.erase fd }

/-- The connection `fd` and its session `id` are gone. -/
def World.release (w : World) (fd : Fd) (id : ConnId) : World :=
  { w.disconnect fd with sessions := w.sessions.erase id }

section Close
variable {w : World} {p : SessionPtr} {s : Session} {id : ConnId}

theorem Server.closeConn_run {fd : Fd} (hreg : w.registered fd = true) (hopen : w.isOpen fd = true) :
    (Server.closeConn fd).run w = .ok () (w.disconnect fd) := by
  simp [Server.closeConn, Epoll.deleteFd, Server.closeFd, hreg, hopen, World.disconnect]

theorem SessionManager.verifySessionExist_run (h : id ∈ w.sessions) : (verifySessionExist id).run w = .ok () w := by
  have hc : w.sessions.contains id = true := h
  simp [verifySessionExist, hc]

theorem SessionManager.verifySessionExist_error (h : id ∉ w.sessions) :
    (verifySessionExist id).run w = .error .verifySessionExist w := by
  have hc : w.sessions.contains id = false := Bool.eq_false_iff.mpr h
  simp [verifySessionExist, hc]

theorem SessionManager.releaseSession_run (h : id ∈ w.sessions) :
    (releaseSession id).run w = .ok () { w with sessions := w.sessions.erase id } := by
  rw [releaseSession, bind_ok (verifySessionExist_run h), modify_run]

theorem Session.close_put (hp : p < w.objects.length) (hclosed : s.isClosed = false) (hid : s.id ∈ w.sessions)
    (hreg : w.registered s.connHandler.fd = true) (hopen : w.isOpen s.connHandler.fd = true) :
    (close p).run (w.put p s) = .ok () ((w.release s.connHandler.fd s.id).put p { s with isClosed := true }) := by
  have hconn : (Server.closeConn s.connHandler.fd).run (w.put p s) = .ok () ((w.disconnect s.connHandler.fd).put p s) :=
    Server.closeConn_run hreg hopen
  have hrelease : (SessionManager.releaseSession s.id).run ((w.disconnect s.connHandler.fd).put p s) =
      .ok () ((w.release s.connHandler.fd s.id).put p s) :=
    SessionManager.releaseSession_run hid
  rw [close, bind_ok (this_put hp)]
  simp only [hclosed, Bool.false_eq_true, if_false]
  rw [bind_ok (this_put hp), bind_ok hconn, bind_ok (this_put (w := w.disconnect _) hp), bind_ok hrelease,
    assign_put (w := w.release _ _) hp]

end Close

/-! ### Reading and writing -/

/-- The session after `CanRead` read `s`. -/
def Session.afterRead (session : Session) (s : ByteString) (isEof : Bool) : Session :=
  { session with
    input := (sentenceLoop (session.input ++ s) session.output).1
    output := (sentenceLoop (session.input ++ s) session.output).2
    isReadable := false
    connHandler := { session.connHandler with isEof := isEof }
    wire := { session.wire with received := session.wire.received ++ s } }

/-- The session after `CanWrite`, where the kernel took at most `n` bytes. -/
def Session.afterWrite (session : Session) (n : Nat) : Session :=
  { session with
    output := session.output.drop n
    isWritable := false
    wire := { session.wire.accept (session.output.take n) with isReady := decide (session.output.length ≤ n) } }

namespace Session
variable {w : World} {p : SessionPtr} {s : Session} {calls : WriteCalls} {readCalls : ReadCalls}

/-- A session that may write and whose connection is ready. -/
def writable (s : Session) : Session := { s with isWritable := true, wire := { s.wire with isReady := true } }

@[simp] theorem writable_output : s.writable.output = s.output := rfl
@[simp] theorem writable_isWritable : s.writable.isWritable = true := rfl

theorem writeLoop_ok (h : s.output.length ≤ calls.total ∨ calls.stop = .again) :
    ConnHandler.writeLoop calls.stop calls.room s.output s.writable.wire =
      ((s.afterWrite calls.total).wire, .ok (s.output.drop calls.total)) := by
  by_cases hall : s.output.length ≤ calls.total
  · rw [ConnHandler.writeLoop_all hall]
    simp [afterWrite, writable, Wire.accept, hall, List.take_of_length_le, List.drop_of_length_le]
  · have hlt : calls.room.sum < s.output.length := by simpa [WriteCalls.total] using hall
    rw [h.resolve_left hall, ConnHandler.writeLoop_again hlt]
    rw [← WriteCalls.total]
    simp [afterWrite, writable, Wire.accept, hall]

/-- `Write` up to the decision whether to close. -/
theorem write_put (hp : p < w.objects.length) (h : s.output.length ≤ calls.total ∨ calls.stop = .again) :
    (write p calls).run (w.put p s.writable) =
      (if s.connHandler.isEof && (s.output.drop calls.total).isEmpty then close p else pure ()).run
        (w.put p (s.afterWrite calls.total)) := by
  have hwrite : (ConnHandler.write p s.writable.output calls).run (w.put p s.writable) =
      .ok (s.output.drop calls.total) (w.put p { s.writable with wire := (s.afterWrite calls.total).wire }) := by
    rw [ConnHandler.write, bind_ok (this_put hp)]
    simp only [writable_output, writeLoop_ok h]
    rw [bind_ok (assign_put hp _), pure_run]
    rfl
  rw [write, bind_ok (this_put hp)]
  simp only [writable_isWritable, Bool.not_true, Bool.false_eq_true, if_false]
  rw [bind_ok (this_put hp), bind_ok hwrite, bind_ok (assign_put hp _), bind_ok (assign_put hp _),
    bind_ok (this_put hp), bind_ok (this_put hp)]
  rfl

theorem write_error (hp : p < w.objects.length) {code : Int} (hlt : calls.total < s.output.length)
    (hstop : calls.stop = .error code) : (write p calls).run (w.put p s.writable) = .error (.write code)
      (w.put p { s.writable with wire := s.writable.wire.accept (s.output.take calls.total) }) := by
  have hwrite : (ConnHandler.write p s.writable.output calls).run (w.put p s.writable) =
      .error (.write code)
        (w.put p { s.writable with wire := s.writable.wire.accept (s.output.take calls.total) }) := by
    rw [ConnHandler.write, bind_ok (this_put hp), hstop]
    simp only [writable_output, ConnHandler.writeLoop_error hlt]
    rw [bind_ok (assign_put hp _), throw_run]
    rfl
  rw [write, bind_ok (this_put hp)]
  simp only [writable_isWritable, Bool.not_true, Bool.false_eq_true, if_false]
  rw [bind_ok (this_put hp), bind_error hwrite]
  rfl

/-- Between two calls a session is not writable, so `Read` does not come to write. -/
theorem read_put (hp : p < w.objects.length) (hw : s.isWritable = false) (h : readCalls.Succeeds) :
    (read p readCalls calls).run (w.put p { s with isReadable := true }) =
      .ok () (w.put p (s.afterRead readCalls.text (s.connHandler.isEof || readCalls.stop == .eof))) := by
  have hread (s' : Session) : (ConnHandler.read p readCalls).run (w.put p s') =
      .ok readCalls.text
        (w.put p
          { s' with
            connHandler := { s'.connHandler with isEof := s'.connHandler.isEof || readCalls.stop == .eof }
            wire := { s'.wire with received := s'.wire.received ++ readCalls.text } }) := by
    rw [ConnHandler.read, bind_ok (this_put hp)]
    simp only [ConnHandler.readLoop_ok h]
    rw [bind_ok (assign_put hp _), pure_run]
    rfl
  rw [read, bind_ok (this_put hp)]
  simp only [Bool.not_true, Bool.false_eq_true, if_false]
  rw [bind_ok (hread _), bind_ok (assign_put hp _), bind_ok (assign_put hp _), bind_ok (assign_put hp _), write,
    bind_ok (this_put hp)]
  simp [hw, afterRead]

theorem read_error (hp : p < w.objects.length) {code : Int} (hstop : readCalls.stop = .error code) :
    (read p readCalls calls).run (w.put p { s with isReadable := true }) =
      .error (.read code) (w.put p { s with isReadable := true }) := by
  have hread (s' : Session) : (ConnHandler.read p readCalls).run (w.put p s') = .error (.read code) (w.put p s') := by
    rw [ConnHandler.read, bind_ok (this_put hp)]
    simp only [hstop, ConnHandler.readLoop_error, throw_run]
  rw [read, bind_ok (this_put hp)]
  simp only [Bool.not_true, Bool.false_eq_true, if_false]
  rw [bind_error (hread _)]

end Session

/-! ### SessionManager -/

namespace SessionManager
variable {w : World} {id : ConnId} {p : SessionPtr} {s : Session} {calls : WriteCalls} {readCalls : ReadCalls}

theorem sessionAt_run (hid : w.sessions[id]? = some p) : (sessionAt id).run w = .ok p w := by
  simp [sessionAt, Std.TreeMap.getD_eq_getD_getElem?, hid]

theorem mem_of_getElem? (hid : w.sessions[id]? = some p) : id ∈ w.sessions :=
  Std.TreeMap.mem_iff_isSome_getElem?.mpr (by rw [hid]; rfl)

/-- A call for a session finds its object. -/
theorem verify_bind {β : Type} {f : SessionPtr → Exec β} (hid : w.sessions[id]? = some p) :
    (do verifySessionExist id; f (← sessionAt id)).run w = (f p).run w := by
  rw [bind_ok (verifySessionExist_run (mem_of_getElem? hid)), bind_ok (sessionAt_run hid)]

theorem canRead_ok (hid : w.sessions[id]? = some p) (hs : w.objects[p]? = some s) (hw : s.isWritable = false)
    (h : readCalls.Succeeds) :
    (canRead id readCalls calls).run w =
      .ok () (w.put p (s.afterRead readCalls.text (s.connHandler.isEof || readCalls.stop == .eof))) := by
  obtain ⟨hp, -⟩ := List.getElem?_eq_some_iff.mp hs
  have hset : (Session.setReadable p).run w = .ok () (w.put p { s with isReadable := true }) := by
    conv_lhs => rw [← World.put_self hs]
    exact Session.assign_put hp _
  rw [canRead, verify_bind hid, bind_ok hset, Session.read_put hp hw h]

theorem canRead_error (hid : w.sessions[id]? = some p) (hs : w.objects[p]? = some s) {code : Int}
    (hstop : readCalls.stop = .error code) : (canRead id readCalls calls).run w =
      .error (.read code) (w.put p { s with isReadable := true }) := by
  obtain ⟨hp, -⟩ := List.getElem?_eq_some_iff.mp hs
  have hset : (Session.setReadable p).run w = .ok () (w.put p { s with isReadable := true }) := by
    conv_lhs => rw [← World.put_self hs]
    exact Session.assign_put hp _
  rw [canRead, verify_bind hid, bind_ok hset, Session.read_error hp hstop]

/-- `CanWrite` comes to `Write` with a session that is writable. -/
theorem canWrite_run (hid : w.sessions[id]? = some p) (hs : w.objects[p]? = some s) :
    (canWrite id calls).run w = (Session.write p calls).run (w.put p s.writable) := by
  obtain ⟨hp, -⟩ := List.getElem?_eq_some_iff.mp hs
  rw [canWrite, verify_bind hid]
  conv_lhs => rw [← World.put_self hs]
  rw [bind_ok (Session.assign_put hp _), Session.setWritable, bind_ok (Session.assign_put hp _)]
  rfl

theorem canWrite_stays (hid : w.sessions[id]? = some p) (hs : w.objects[p]? = some s)
    (h : s.output.length ≤ calls.total ∨ calls.stop = .again)
    (hopen : ¬(s.connHandler.isEof = true ∧ s.output.length ≤ calls.total)) :
    (canWrite id calls).run w = .ok () (w.put p (s.afterWrite calls.total)) := by
  obtain ⟨hp, -⟩ := List.getElem?_eq_some_iff.mp hs
  rw [canWrite_run hid hs, Session.write_put hp h, if_neg (by simpa using hopen), pure_run]

theorem canWrite_closes (hid : w.sessions[id]? = some p) (hs : w.objects[p]? = some s) (heof : s.connHandler.isEof = true)
    (hall : s.output.length ≤ calls.total) (hsid : s.id = id) (hclosed : s.isClosed = false)
    (hreg : w.registered s.connHandler.fd = true) (hopen : w.isOpen s.connHandler.fd = true) :
    (canWrite id calls).run w =
      .ok () ((w.release s.connHandler.fd id).put p { s.afterWrite calls.total with isClosed := true }) := by
  obtain ⟨hp, -⟩ := List.getElem?_eq_some_iff.mp hs
  rw [canWrite_run hid hs, Session.write_put hp (.inl hall), if_pos (by simp [heof, hall])]
  subst hsid
  exact Session.close_put (s := s.afterWrite calls.total) hp hclosed (mem_of_getElem? hid) hreg hopen

theorem canWrite_error (hid : w.sessions[id]? = some p) (hs : w.objects[p]? = some s)
    (hlt : calls.total < s.output.length) {code : Int} (hstop : calls.stop = .error code) :
    (canWrite id calls).run w = .error (.write code)
      (w.put p { s.writable with wire := s.writable.wire.accept (s.output.take calls.total) }) := by
  obtain ⟨hp, -⟩ := List.getElem?_eq_some_iff.mp hs
  rw [canWrite_run hid hs]
  exact Session.write_error hp hlt hstop

/-- `ErrorOccurred` and `TimeToExit` close the session. -/
theorem close_run (hid : w.sessions[id]? = some p) (hs : w.objects[p]? = some s) (hsid : s.id = id)
    (hclosed : s.isClosed = false) (hreg : w.registered s.connHandler.fd = true)
    (hopen : w.isOpen s.connHandler.fd = true) :
    (errorOccurred id).run w = .ok () ((w.release s.connHandler.fd id).put p { s with isClosed := true }) := by
  obtain ⟨hp, -⟩ := List.getElem?_eq_some_iff.mp hs
  rw [errorOccurred, verify_bind hid]
  conv_lhs => rw [← World.put_self hs]
  subst hsid
  exact Session.close_put hp hclosed (mem_of_getElem? hid) hreg hopen

end SessionManager

end EdgeTriggered
