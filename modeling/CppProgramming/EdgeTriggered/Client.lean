import CppProgramming.SocketTcp.TypedData

/-! # The client of the session server

`Run` waits for stdin and the connection with `poll`. What is typed goes into `r` without its newlines and from there to
the connection, for which `POLLOUT` is waited for as long as `r` is not empty; what the server sends is printed. A call
of `Run` gets the results of its system calls round by round, and ends with the server or with an exception. -/

namespace EdgeTriggered.Client
open Std.Do
open SocketTcp.Poll (pollIn pollOut pollOut_set pollOut_clear)

/-- `'\n'`. -/
def newline : UInt8 := 10

/-- The buffer of `Read` has one byte more, for the end of the string. -/
def bufSize : Nat := 512

/-- What is printed: `"peer closed"`, `">"` and `"<"` with what follows. -/
inductive Output where
  | peerClosed
  | received (s : ByteString)
  | sent (s : ByteString)
  deriving DecidableEq, Repr

/-- How `Run` ends. -/
inductive Ending where
  | peerClosed
  | exception (code : Int)
  deriving DecidableEq, Repr

/-- The variables of `Run`; `events` are those that are waited for on the connection. The other fields are history,
    which the code does not read: the bytes that each `read` of stdin has delivered, the bytes that `write` has accepted
    and those that `read` has delivered on the connection, whether it has returned 0 there, and what has been printed. -/
structure State where
  events : BitVec 16 := pollIn
  r : ByteString := []
  typed : List ByteString := []
  accepted : ByteString := []
  delivered : ByteString := []
  eof : Bool := false
  printed : List Output := []

/-- A function of the client. -/
abbrev Exec := EStateM Ending State

/-- The result of `poll`: an error, nothing, or what has happened on stdin and on the connection. -/
abbrev Polled := Except Int (Option (BitVec 16 × BitVec 16))

/-- The results of the other calls in one round. -/
structure Calls where
  stdin : Except Int ByteString
  socket : Except Int ByteString
  write : Except Int Nat

/-- An output of `std::cout`. -/
def print (o : Output) : Exec Unit := modify fun s => { s with printed := s.printed ++ [o] }

/-- `Read`, where `read` puts `bytes` into the buffer of zeros. -/
def read : Except Int ByteString → Exec ByteString
  | .error code => throw (.exception code)
  | .ok bytes => pure (CString.content (bytes ++ List.replicate (bufSize + 1 - bytes.length) 0))

/-- `Write`, where `write` accepts `n` bytes. -/
def write (s : ByteString) : Except Int Nat → Exec ByteString
  | .error code => throw (.exception code)
  | .ok n => do
    modify fun x => { x with accepted := x.accepted ++ s.take n }
    return s.drop n

/-- `if (pollFds[0].revents)`. -/
def stdinReady (calls : Calls) : Exec Unit := do
  let s ← read calls.stdin
  modify fun x => { x with typed := x.typed ++ [calls.stdin.toOption.getD []] }
  modify fun x => { x with r := x.r ++ s }
  modify fun x => { x with r := x.r.filter fun c => c ≠ newline }
  if (← get).r.length > 0 then modify fun x => { x with events := x.events ||| pollOut }

/-- `Read(pollFds[1].fd)`. -/
def readSocket (calls : Calls) : Exec ByteString := do
  let s ← read calls.socket
  modify fun x => { x with
    delivered := x.delivered ++ (calls.socket.toOption.getD [])
    eof := x.eof || calls.socket.toOption == some [] }
  return s

/-- `if (pollFds[1].revents & POLLIN)`. -/
def socketReadable (calls : Calls) : Exec Unit := do
  let s ← readSocket calls
  if s.length = 0 then
    print .peerClosed
    throw .peerClosed
  print (.received s)

/-- `if (pollFds[1].revents & POLLOUT)`. -/
def socketWritable (calls : Calls) : Exec Unit := do
  let tmp := (← get).r
  let r ← write tmp calls.write
  modify fun x => { x with r := r }
  if r.length = 0 then modify fun x => { x with events := x.events &&& ~~~pollOut }
  print (.sent (tmp.take (tmp.length - r.length)))

/-- The body of the loop of `Run`. -/
def round (polled : Polled) (calls : Calls) : Exec Unit :=
  match polled with
  | .error code => throw (.exception code)
  | .ok none => pure ()
  | .ok (some (stdin, socket)) => do
    if stdin ≠ 0 then stdinReady calls
    if socket &&& pollIn ≠ 0 then socketReadable calls
    if socket &&& pollOut ≠ 0 then socketWritable calls

/-- `Run` behind `Connect`, for as many rounds as there are results. -/
def run (rounds : List (Polled × Calls)) : EStateM.Result Ending State Unit :=
  (forM rounds fun x => round x.1 x.2 : Exec Unit).run {}

/-! ### What a round keeps -/

/-- What was printed of what the server has sent. -/
def Output.receivedBytes : Output → ByteString
  | received s => s
  | _ => []

/-- What was printed of what was sent. -/
def Output.sentBytes : Output → ByteString
  | sent s => s
  | _ => []

/-- What has been printed behind `">"`. -/
def State.received (s : State) : ByteString := (s.printed.map Output.receivedBytes).flatten

/-- What has been printed behind `"<"`. -/
def State.sent (s : State) : ByteString := (s.printed.map Output.sentBytes).flatten

/-- What `Run` takes of what has been typed: of each `read` what comes before the first zero, without the newlines. -/
def State.text (s : State) : ByteString := (s.typed.map CString.content).flatten.filter fun c => c ≠ newline

/-- What is taken of what has been typed is sent or in `r`, and the connection is waited for to be writable as long as
    `r` is not empty; what has been delivered is printed. -/
structure State.Kept (s : State) : Prop where
  bytes : s.accepted ++ s.r = s.text
  interest : s.events &&& pollOut ≠ 0 ↔ s.r ≠ []
  sent : s.sent = s.accepted
  received : 0 ∉ s.delivered → s.received = s.delivered
  peerClosed : 0 ∉ s.delivered → .peerClosed ∈ s.printed → s.eof = true

/-- `read` delivers at most what there is room for. -/
def Calls.Fits (calls : Calls) : Prop :=
  ∀ bytes, calls.stdin = .ok bytes ∨ calls.socket = .ok bytes → bytes.length ≤ bufSize

/-- What has been typed is taken whole if and only if there is no zero in it. -/
theorem State.text_eq_iff {s : State} :
    s.text = s.typed.flatten.filter (fun c => c ≠ newline) ↔ ∀ bytes ∈ s.typed, 0 ∉ bytes := by
  have hfront : ∀ bytes ∈ s.typed, (CString.content bytes).filter (fun c => c ≠ newline) <+:
      bytes.filter fun c => c ≠ newline := fun bytes _ => CString.content_begin.filter _
  rw [State.text, List.filter_flatten, List.filter_flatten, List.map_map]
  refine (CString.flatten_map_eq_iff hfront).trans ?_
  refine forall₂_congr fun bytes _ => ⟨fun heq hzero => ?_, fun hzero => ?_⟩
  · -- A zero is no newline.
    have hmem : 0 ∈ bytes.filter fun c => c ≠ newline := List.mem_filter.mpr ⟨hzero, by decide⟩
    exact CString.not_mem_content (List.mem_filter.mp (heq ▸ hmem)).1
  · exact congrArg (List.filter _) (CString.content_eq_self_iff.mpr hzero)

theorem content_buffer {bytes : ByteString} (h : bytes.length ≤ bufSize) :
    CString.content (bytes ++ List.replicate (bufSize + 1 - bytes.length) 0) = CString.content bytes := by
  obtain ⟨k, hk⟩ : ∃ k, bufSize + 1 - bytes.length = k + 1 := ⟨bufSize - bytes.length, by omega⟩
  rw [hk, List.replicate_succ]
  exact CString.content_append_zero

section Kept
variable {s : State} {line bytes : ByteString} {events : BitVec 16}

/-- Something is read from stdin. -/
theorem State.Kept.typeIn (h : s.Kept) (hline : line = CString.content bytes)
    (hevents : events &&& pollOut ≠ 0 ↔ (s.r ++ line).filter (fun c => c ≠ newline) ≠ []) :
    State.Kept { s with
      events := events, r := (s.r ++ line).filter fun c => c ≠ newline, typed := s.typed ++ [bytes] } where
  bytes := by
    have hr : s.r.filter (fun c => c ≠ newline) = s.r := by
      refine List.filter_eq_self.mpr fun c hc => ?_
      have htext : c ∈ s.text := h.bytes ▸ List.mem_append_right _ hc
      exact (List.mem_filter.mp htext).2
    rw [List.filter_append, hr, ← List.append_assoc, h.bytes, State.text, State.text, List.map_append,
      List.flatten_append, List.filter_append, List.map_singleton, List.flatten_singleton, hline]
  interest := hevents
  sent := h.sent
  received := h.received
  peerClosed := h.peerClosed

/-- `read` delivers something, or returns 0, and that is printed. -/
theorem State.Kept.deliver (h : s.Kept) {o : Output} {eof : Bool} (hsent : o.sentBytes = [])
    (hreceived : 0 ∉ bytes → o.receivedBytes = bytes) (hclosed : 0 ∉ bytes → o = .peerClosed → eof = true) :
    State.Kept { s with delivered := s.delivered ++ bytes, eof := s.eof || eof, printed := s.printed ++ [o] } where
  bytes := h.bytes
  interest := h.interest
  sent := by
    rw [← h.sent, State.sent, State.sent, List.map_append, List.flatten_append, List.map_singleton,
      List.flatten_singleton, hsent, List.append_nil]
  received := by
    intro hzero
    rw [State.received, List.map_append, List.flatten_append, List.map_singleton, List.flatten_singleton, ← State.received,
      h.received fun hmem => hzero (List.mem_append_left _ hmem),
      hreceived fun hmem => hzero (List.mem_append_right _ hmem)]
  peerClosed := by
    intro hzero hmem
    rw [Bool.or_eq_true]
    rcases List.mem_append.mp hmem with hold | hnew
    · exact .inl (h.peerClosed (fun hz => hzero (List.mem_append_left _ hz)) hold)
    · exact .inr (hclosed (fun hz => hzero (List.mem_append_right _ hz)) (List.mem_singleton.mp hnew).symm)

/-- `write` accepts something. -/
theorem State.Kept.send (h : s.Kept) (n : Nat) (hevents : events &&& pollOut ≠ 0 ↔ s.r.drop n ≠ []) :
    State.Kept { s with
      events := events, r := s.r.drop n, accepted := s.accepted ++ s.r.take n
      printed := s.printed ++ [.sent (s.r.take (s.r.length - (s.r.drop n).length))] } where
  bytes := by
    rw [List.append_assoc, List.take_append_drop]
    exact h.bytes
  interest := hevents
  sent := by
    have hlength : s.r.length - (s.r.drop n).length = min n s.r.length := by
      rw [List.length_drop]
      omega
    rw [hlength, ← List.take_eq_take_min, State.sent, List.map_append, List.flatten_append, ← State.sent, h.sent]
    simp [Output.sentBytes]
  received := by
    intro hzero
    rw [State.received, List.map_append, List.flatten_append, ← State.received, h.received hzero]
    simp [Output.receivedBytes]
  peerClosed := by
    intro hzero hmem
    rcases List.mem_append.mp hmem with hold | hnew
    · exact h.peerClosed hzero hold
    · simp at hnew

end Kept

/-- The function keeps `Kept`, also where it ends `Run`. -/
abbrev Keeps {α : Type} (x : Exec α) : Prop :=
  ⦃fun s => ⌜s.Kept⌝⦄ x ⦃post⟨fun _ s => ⌜s.Kept⌝, fun _ s => ⌜s.Kept⌝⟩⦄

theorem stdinReady_keeps {calls : Calls} (hfits : calls.Fits) : Keeps (stdinReady calls) := by
  -- What is typed is what `read` has put into the buffer, up to the first zero.
  have hline : ∀ bytes, calls.stdin = .ok bytes →
      CString.content (bytes ++ List.replicate (bufSize + 1 - bytes.length) 0) =
        CString.content (calls.stdin.toOption.getD []) := by
    intro bytes hread
    rw [content_buffer (hfits bytes (.inl hread)), hread]
    rfl
  unfold stdinReady read
  mvcgen
  case vc2 s h bytes hread _ _ _ hne _ =>
    exact h.typeIn (hline bytes hread) (iff_of_true (pollOut_set s.events) (List.ne_nil_of_length_pos hne))
  case vc3 s h bytes hread _ _ _ hempty =>
    have hnil : (s.r ++ CString.content _).filter (fun c => c ≠ newline) = [] :=
      List.length_eq_zero_iff.mp (Nat.eq_zero_of_not_pos hempty)
    refine h.typeIn (hline bytes hread) (iff_of_false (fun hset => ?_) (not_not_intro hnil))
    -- There was nothing to write before.
    refine h.interest.mp hset (List.eq_nil_iff_forall_not_mem.mpr fun c hc => ?_)
    have htext : c ∈ s.text := h.bytes ▸ List.mem_append_right _ hc
    exact List.filter_eq_nil_iff.mp hnil c (List.mem_append_left _ hc) (List.mem_filter.mp htext).2

theorem socketReadable_keeps {calls : Calls} (hfits : calls.Fits) : Keeps (socketReadable calls) := by
  unfold socketReadable readSocket read print
  mvcgen
  case vc2 s h bytes hread _ _ hempty _ =>
    -- The string is empty, and so is what was delivered unless there is a zero in it.
    rw [content_buffer (hfits bytes (.inr hread))] at hempty
    have hnil : 0 ∉ bytes → bytes = [] := by
      intro hzero
      rw [CString.content_eq_self_iff.mpr hzero] at hempty
      exact List.length_eq_zero_iff.mp hempty
    have hdelivered : calls.socket.toOption = some bytes := congrArg Except.toOption hread
    refine h.deliver rfl ?_ ?_
    all_goals rw [hdelivered, Option.getD_some]
    · exact fun hzero => (hnil hzero).symm
    · intro hzero _
      rw [hnil hzero]
      rfl
  case vc3 s h bytes hread _ _ hne _ =>
    have hdelivered : calls.socket.toOption = some bytes := congrArg Except.toOption hread
    refine h.deliver rfl ?_ (fun _ hclosed => by cases hclosed)
    rw [hdelivered, Option.getD_some]
    exact fun hzero => (content_buffer (hfits bytes (.inr hread))).trans (CString.content_eq_self_iff.mpr hzero)

theorem socketWritable_keeps (calls : Calls) : Keeps (socketWritable calls) := by
  unfold socketWritable write print
  mvcgen
  case vc2 s h _ n _ _ _ _ hempty _ _ =>
    have hnil : s.r.drop n = [] := List.length_eq_zero_iff.mp hempty
    exact h.send n (iff_of_false (not_not_intro (pollOut_clear s.events)) (not_not_intro hnil))
  case vc3 s h _ n _ _ _ _ hne _ =>
    have hrest : s.r.drop n ≠ [] := fun hnil => hne (by rw [hnil]; rfl)
    have hr : s.r ≠ [] := fun hnil => hrest (by rw [hnil, List.drop_nil])
    exact h.send n (iff_of_true (h.interest.mpr hr) hrest)

theorem round_keeps (polled : Polled) {calls : Calls} (hfits : calls.Fits) : Keeps (round polled calls) := by
  have hstdin := stdinReady_keeps hfits
  have hsocket := socketReadable_keeps hfits
  unfold round
  mvcgen [hstdin, hsocket, socketWritable_keeps]

/-- The state in which a call has ended, or is after its rounds. -/
def lastState : EStateM.Result Ending State Unit → State
  | .ok _ s => s
  | .error _ s => s

theorem Keeps.lastState {x : Exec Unit} (h : Keeps x) {s : State} (hs : s.Kept) :
    (lastState (x.run s)).Kept := by
  have hrun := h s hs
  cases hx : x.run s with
  | ok _ s' =>
    simp only [wp, PredTrans.apply, hx] at hrun
    exact hrun
  | error e s' =>
    simp only [wp, PredTrans.apply, hx] at hrun
    exact hrun

/-- Nothing is taken back: of what was accepted and delivered, and of the end of the connection. -/
structure State.Onward (s₀ s : State) : Prop where
  accepted : s₀.accepted <+: s.accepted
  delivered : s₀.delivered <+: s.delivered
  eof : s₀.eof = true → s.eof = true

/-- The function takes nothing back since `s₀`, also where it ends `Run`. -/
abbrev KeepsOnward {α : Type} (s₀ : State) (x : Exec α) : Prop :=
  ⦃fun s => ⌜s₀.Onward s⌝⦄ x ⦃post⟨fun _ s => ⌜s₀.Onward s⌝, fun _ s => ⌜s₀.Onward s⌝⟩⦄

theorem round_onward (s₀ : State) (polled : Polled) (calls : Calls) : KeepsOnward s₀ (round polled calls) := by
  have hstdin : KeepsOnward s₀ (stdinReady calls) := by
    unfold stdinReady read
    mvcgen
    case vc2 h _ _ _ _ _ _ _ => exact ⟨h.accepted, h.delivered, h.eof⟩
    case vc3 h _ _ _ _ _ _ => exact ⟨h.accepted, h.delivered, h.eof⟩
  have hread : KeepsOnward s₀ (readSocket calls) := by
    unfold readSocket read
    mvcgen
    case vc2 h _ _ _ =>
      exact ⟨h.accepted, h.delivered.trans (List.prefix_append _ _), fun heof =>
        Bool.or_eq_true_iff.mpr (.inl (h.eof heof))⟩
  have hsocket : KeepsOnward s₀ (socketReadable calls) := by
    unfold socketReadable print
    mvcgen [hread]
    case vc2 h _ => exact ⟨h.accepted, h.delivered, h.eof⟩
    case vc3 h _ => exact ⟨h.accepted, h.delivered, h.eof⟩
  have hwritable : KeepsOnward s₀ (socketWritable calls) := by
    unfold socketWritable write print
    mvcgen
    case vc2 h _ _ _ _ _ _ _ _ _ => exact ⟨h.accepted.trans (List.prefix_append _ _), h.delivered, h.eof⟩
    case vc3 h _ _ _ _ _ _ _ _ => exact ⟨h.accepted.trans (List.prefix_append _ _), h.delivered, h.eof⟩
  unfold round
  mvcgen [hstdin, hsocket, hwritable]

theorem KeepsOnward.lastState {x : Exec Unit} {s₀ : State} (h : KeepsOnward s₀ x) : s₀.Onward (lastState (x.run s₀)) := by
  have hrun := h s₀ ⟨List.prefix_refl _, List.prefix_refl _, id⟩
  cases hx : x.run s₀ with
  | ok _ s' =>
    simp only [wp, PredTrans.apply, hx] at hrun
    exact hrun
  | error e s' =>
    simp only [wp, PredTrans.apply, hx] at hrun
    exact hrun

theorem start_kept : State.Kept {} where
  bytes := rfl
  interest := iff_of_false (by decide) (by simp)
  sent := rfl
  received _ := rfl
  peerClosed := by simp

theorem rounds_keep {rounds : List (Polled × Calls)} (hfits : ∀ x ∈ rounds, x.2.Fits) :
    Keeps (forM rounds fun x => round x.1 x.2) := by
  induction rounds with
  | nil =>
    rw [List.forM_nil]
    mvcgen
  | cons x rounds ih =>
    rw [List.forM_cons]
    have hround := round_keeps x.1 (hfits x (List.mem_cons_self ..))
    have hrounds := ih fun y hy => hfits y (List.mem_cons_of_mem _ hy)
    mvcgen [hround, hrounds]

/-- Whatever is typed, however the connection takes and delivers it, and however `Run` ends: what was accepted and `r` are
    what comes before the first zero in each `read` of stdin, without the newlines, and so all that was typed without its
    newlines if and only if no zero was typed; the lines with `"<"` are what was accepted, and the connection is waited
    for to be writable if and only if something is left. -/
theorem run_conserves (rounds : List (Polled × Calls)) (hfits : ∀ x ∈ rounds, x.2.Fits) :
    (lastState (run rounds)).accepted ++ (lastState (run rounds)).r = (lastState (run rounds)).text ∧
    ((lastState (run rounds)).accepted ++ (lastState (run rounds)).r =
        (lastState (run rounds)).typed.flatten.filter (fun c => c ≠ newline) ↔
      ∀ bytes ∈ (lastState (run rounds)).typed, 0 ∉ bytes) ∧
    (lastState (run rounds)).sent = (lastState (run rounds)).accepted ∧
    ((lastState (run rounds)).events &&& pollOut ≠ 0 ↔ (lastState (run rounds)).r ≠ []) := by
  have hkept := (rounds_keep hfits).lastState start_kept
  exact ⟨hkept.bytes, hkept.bytes ▸ State.text_eq_iff, hkept.sent, hkept.interest⟩

/-- `"a.\n"` is typed, and the connection takes one byte of it. -/
def typesSentence : Polled × Calls :=
  (.ok (some (1, 4)), { stdin := .ok [97, 46, 10], socket := .error 0, write := .ok 1 })

theorem run_conserves_sentence : (lastState (run [typesSentence])).r = [46] ∧
    (lastState (run [typesSentence])).accepted ++ (lastState (run [typesSentence])).r =
      (lastState (run [typesSentence])).text ∧
    ((lastState (run [typesSentence])).accepted ++ (lastState (run [typesSentence])).r =
        (lastState (run [typesSentence])).typed.flatten.filter (fun c => c ≠ newline) ↔
      ∀ bytes ∈ (lastState (run [typesSentence])).typed, 0 ∉ bytes) ∧
    (lastState (run [typesSentence])).sent = (lastState (run [typesSentence])).accepted ∧
    ((lastState (run [typesSentence])).events &&& pollOut ≠ 0 ↔ (lastState (run [typesSentence])).r ≠ []) :=
  ⟨rfl, run_conserves [typesSentence] (by simp [Calls.Fits, typesSentence, bufSize])⟩

end EdgeTriggered.Client
