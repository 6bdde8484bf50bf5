import CppProgramming.HelloWorld.ChatStreaming
import CppProgramming.HelloWorld.EchoServer

/-! # The blocking ends of a talk call

`ChatClient::talk` writes from a thread of its own, `tw`, while its caller reads, and `ChatServiceImpl::talk` serves a
call in one loop. -/

namespace HelloWorld.Talk
open Server (Status)

/-! ### The client -/

/-- Where the caller of `talk` is. -/
inductive MainPc where
  -- In `stub->talk`, which starts the call.
  | call
  | read
  | join
  | finish
  | done
  deriving DecidableEq, Repr

/-- Where `tw` is: in its loop, with the messages that are left, and then in `WritesDone`. -/
inductive WriterPc where
  | loop (left : List String)
  | done
  deriving DecidableEq, Repr

/-- `talk` of the client with its end of the connection. `status` is what `Finish` has returned, `none` when the library
    has made it up; `trailing` is the status that has come in. What has been logged of the responses, `printed`, and what
    went over the connection, are history. -/
structure ChatClient where
  main : MainPc := .call
  tw : WriterPc
  status : Option Status := none
  printed : List String := []
  broken : Bool := false
  shut : Bool := false
  trailing : Option Status := none
  sent : List Frame := []
  got : List Frame := []

namespace ChatClient

/-- What `tw` writes. -/
def messages : List String := (List.range 10).map toString

/-- At the begin of `talk`. -/
def start (messages : List String) : ChatClient := { tw := .loop messages }

/-- A step of one of the two threads, with what arrives from the server. The loops take no notice of a `Write` that
    fails. Without a breakdown `Read` fails only behind the last words, when the status has come in. -/
inductive Step : ChatClient → List Frame → ChatClient → Prop
  | call {c : ChatClient} : c.main = .call → c.broken = false → c.shut = false →
      Step c [] { c with main := .read, sent := c.sent ++ [Frame.call] }
  | callFails {c : ChatClient} : c.main = .call → c.broken = true → Step c [] { c with main := .read }
  | write {c : ChatClient} {msg : String} {left : List String} : c.main ≠ .call → c.tw = .loop (msg :: left) →
      c.broken = false → c.shut = false → Step c [] { c with tw := .loop left, sent := c.sent ++ [Frame.words msg] }
  | writeFails {c : ChatClient} {msg : String} {left : List String} : c.main ≠ .call → c.tw = .loop (msg :: left) →
      c.broken = true → Step c [] { c with tw := .loop left }
  | writesDone {c : ChatClient} : c.main ≠ .call → c.tw = .loop [] → c.broken = false →
      Step c [] { c with tw := .done, shut := true }
  | writesDoneFails {c : ChatClient} : c.main ≠ .call → c.tw = .loop [] → c.broken = true →
      Step c [] { c with tw := .done }
  | read {c : ChatClient} (content : String) : c.main = .read → c.broken = false → c.trailing = none →
      Step c [.words content] { c with printed := c.printed ++ [content], got := c.got ++ [Frame.words content] }
  | readEnd {c : ChatClient} : c.main = .read → c.trailing.isSome = true → Step c [] { c with main := .join }
  | readFails {c : ChatClient} : c.main = .read → c.broken = true → Step c [] { c with main := .join }
  | join {c : ChatClient} : c.main = .join → c.tw = .done → Step c [] { c with main := .finish }
  | finish {c : ChatClient} (status : Status) : c.main = .finish → c.trailing = some status →
      Step c [] { c with main := .done, status := some status }
  | finishFails {c : ChatClient} : c.main = .finish → c.broken = true → Step c [] { c with main := .done }
  | trailing {c : ChatClient} (status : Status) : c.broken = false → c.trailing = none →
      Step c [.status status] { c with trailing := some status, got := c.got ++ [Frame.status status] }
  | breaks {c : ChatClient} : Step c [] { c with broken := true }

/-- The call for `messages`; it is done when both threads are. -/
def clientEnd (messages : List String) : ClientEnd where
  State := ChatClient
  start := start messages
  Step c d e c' := Step c d c' ∧ e = false
  sent := sent
  got := got
  shut := shut
  ended _ := false
  broken := broken
  printed := printed
  reported c := c.status == some .ok
  Finished c := c.main = .done ∧ c.tw = .done

end ChatClient

/-! ### The service -/

/-- `talk` of the service with its end of the connection. At `finish` it has returned, and the library sends the
    status. -/
structure ChatServiceImpl where
  stage : Stage := .call
  broken : Bool := false
  ended : Bool := false
  shut : Bool := false
  sent : List Frame := []
  got : List Frame := []

namespace ChatServiceImpl

/-- A step of the loop, with what arrives from the client, and whether the client has ended its words. -/
inductive Step : ChatServiceImpl → List Frame → Bool → ChatServiceImpl → Prop
  | call {s : ChatServiceImpl} : s.stage = .call → s.broken = false →
      Step s [.call] false { s with stage := .read, got := s.got ++ [Frame.call] }
  | read {s : ChatServiceImpl} (content : String) : s.stage = .read → s.broken = false →
      Step s [.words content] false { s with stage := .write content, got := s.got ++ [Frame.words content] }
  | readEnd {s : ChatServiceImpl} : s.stage = .read → s.broken = false →
      Step s [] true { s with stage := .finish, ended := true }
  | readFails {s : ChatServiceImpl} : s.stage = .read → s.broken = true → Step s [] false { s with stage := .finish }
  | write {s : ChatServiceImpl} {content : String} : s.stage = .write content → s.broken = false → s.shut = false →
      Step s [] false { s with stage := .read, sent := s.sent ++ [Frame.words content] }
  -- Nor does this loop look at what `Write` returns.
  | writeFails {s : ChatServiceImpl} {content : String} : s.stage = .write content → s.broken = true →
      Step s [] false { s with stage := .read }
  | finish {s : ChatServiceImpl} : s.stage = .finish → s.broken = false → s.shut = false →
      Step s [] false { s with stage := .done, sent := s.sent ++ [Frame.status .ok], shut := true }
  | finishFails {s : ChatServiceImpl} : s.stage = .finish → s.broken = true → Step s [] false { s with stage := .done }
  | breaks {s : ChatServiceImpl} : Step s [] false { s with broken := true }

/-- The service; it is done when it has returned. -/
def serverEnd : ServerEnd where
  State := ChatServiceImpl
  start := {}
  Step := Step
  sent := sent
  got := got
  shut := shut
  ended := ended
  broken := broken
  Finished s := s.stage = .done

end ChatServiceImpl

/-! ### What the client keeps -/

/-- The messages that `tw` has left. -/
def WriterPc.left : WriterPc → List String
  | .loop left => left
  | .done => []

/-- What `tw` has to do. -/
def WriterPc.work : WriterPc → Nat
  | .loop left => left.length + 1
  | .done => 0

/-- What the other thread has to do until the next `Read`. -/
def MainPc.work : MainPc → Nat
  | .call => 4
  | .read => 3
  | .join => 2
  | .finish => 1
  | .done => 0

namespace ChatClient

/-- What is still to be sent. -/
def toSend (c : ChatClient) : List Frame := (if c.main = .call then [Frame.call] else []) ++ c.tw.left.map Frame.words

/-- What holds of the two threads at every step. -/
structure Inv (messages : List String) (c : ChatClient) : Prop where
  sent : c.sent <+: script messages
  rest : c.broken = false → c.sent ++ c.toSend = script messages
  fresh : c.main = .call → c.tw ≠ .done
  shut : c.shut = true → c.sent = script messages ∧ c.tw = .done
  closed : c.broken = false → c.tw = .done → c.shut = true
  got : c.got = c.printed.map Frame.words ++ (c.trailing.map Frame.status).toList
  behind : c.broken = false → c.main ≠ .call → c.main ≠ .read → c.trailing.isSome = true
  joined : c.main = .finish ∨ c.main = .done → c.tw = .done
  status : ∀ status, c.status = some status → c.trailing = some status
  told : c.broken = false → c.main = .done → c.status = c.trailing

variable {messages : List String} {c c' : ChatClient} {d : List Frame} {size : Nat}

theorem Inv.start (messages : List String) : (start messages).Inv messages where
  sent := List.nil_prefix
  rest _ := rfl
  fresh _ := WriterPc.noConfusion
  shut := Bool.noConfusion
  closed _ := WriterPc.noConfusion
  got := rfl
  behind _ h := absurd rfl h
  joined := by rintro (h | h) <;> cases h
  status _ h := by cases h
  told _ h := by cases h

/-- The stream is open as long as `tw` has something to do. -/
theorem Inv.not_shut (h : c.Inv messages) (htw : c.tw ≠ .done) : c.shut = false := by
  by_contra hshut
  exact htw (h.shut (Bool.eq_true_of_not_eq_false hshut)).2

theorem toSend_of_ne (h : c.main ≠ .call) : c.toSend = c.tw.left.map .words := by
  rw [toSend, if_neg h, List.nil_append]

/-- What the next frame is, the stream begins with. -/
theorem Inv.sent_concat {frame : Frame} {rest : List Frame} (h : c.Inv messages) (hb : c.broken = false)
    (hrest : c.toSend = frame :: rest) : c.sent ++ [frame] ++ rest = script messages := by
  have hall := h.rest hb
  rw [hrest] at hall
  rw [List.append_assoc]
  exact hall

theorem Inv.step (h : c.Inv messages) (hs : Step c d c') : c'.Inv messages := by
  cases hs with
  | call hmain hb hopen =>
    have hfirst : c.toSend = .call :: c.tw.left.map .words := by rw [toSend, if_pos hmain, List.singleton_append]
    have hall := h.sent_concat hb hfirst
    have hkeep : ∀ {p : Prop}, MainPc.read = .finish ∨ MainPc.read = .done → p := by
      rintro p (h | h) <;> cases h
    exact ⟨⟨_, hall⟩, fun _ => hall, MainPc.noConfusion, fun hshut => (by cases hopen.symm.trans hshut), h.closed, h.got,
      fun _ _ hread => absurd rfl hread, hkeep, h.status, fun _ => MainPc.noConfusion⟩
  | callFails hmain hb =>
    have hbroken : ∀ {p : Prop}, c.broken = false → p := fun hb' => by cases hb.symm.trans hb'
    have hkeep : ∀ {p : Prop}, MainPc.read = .finish ∨ MainPc.read = .done → p := by
      rintro p (h | h) <;> cases h
    exact ⟨h.sent, hbroken, MainPc.noConfusion, h.shut, h.closed, h.got, hbroken, hkeep, h.status, hbroken⟩
  | @write msg left hmain htw hb hopen =>
    have hall := h.sent_concat hb (by rw [toSend_of_ne hmain, htw]; rfl)
    have hrest : c.sent ++ [Frame.words msg] ++ toSend { c with tw := .loop left, sent := c.sent ++ [Frame.words msg] } =
        script messages := by
      rw [toSend_of_ne (by exact hmain)]
      exact hall
    exact ⟨⟨_, hall⟩, fun _ => hrest, fun _ => WriterPc.noConfusion, fun hshut => (by cases hopen.symm.trans hshut),
      fun _ => WriterPc.noConfusion, h.got, h.behind, fun hdone => (by cases htw.symm.trans (h.joined hdone)), h.status,
      h.told⟩
  | writeFails hmain htw hb =>
    have hbroken : ∀ {p : Prop}, c.broken = false → p := fun hb' => by cases hb.symm.trans hb'
    have hopen : c.shut = false := h.not_shut (by rw [htw]; exact WriterPc.noConfusion)
    exact ⟨h.sent, hbroken, fun _ => WriterPc.noConfusion, fun hshut => (by cases hopen.symm.trans hshut), hbroken, h.got,
      hbroken, fun hdone => (by cases htw.symm.trans (h.joined hdone)), h.status, hbroken⟩
  | writesDone hmain htw hb =>
    have hall := h.rest hb
    rw [toSend_of_ne hmain, htw] at hall
    have hsent : c.sent = script messages := (List.append_nil _).symm.trans hall
    have hrest : c.sent ++ toSend { c with tw := .done, shut := true } = script messages := by
      rw [toSend_of_ne (by exact hmain)]
      exact hall
    exact ⟨h.sent, fun _ => hrest, fun hcall => absurd hcall hmain, fun _ => ⟨hsent, rfl⟩, fun _ _ => rfl, h.got,
      h.behind, fun _ => rfl, h.status, h.told⟩
  | writesDoneFails hmain htw hb =>
    have hbroken : ∀ {p : Prop}, c.broken = false → p := fun hb' => by cases hb.symm.trans hb'
    have hopen : c.shut = false := h.not_shut (by rw [htw]; exact WriterPc.noConfusion)
    exact ⟨h.sent, hbroken, fun hcall => absurd hcall hmain, fun hshut => (by cases hopen.symm.trans hshut), hbroken,
      h.got, hbroken, fun _ => rfl, h.status, hbroken⟩
  | read content hmain hb hnone =>
    refine ⟨h.sent, h.rest, h.fresh, h.shut, h.closed, ?_, h.behind, h.joined, h.status, h.told⟩
    show c.got ++ [Frame.words content] = (c.printed ++ [content]).map Frame.words ++ (c.trailing.map Frame.status).toList
    rw [h.got, hnone]
    simp
  | readEnd hmain hsome =>
    refine ⟨h.sent, fun hb => ?_, MainPc.noConfusion, h.shut, h.closed, h.got, fun _ _ _ => hsome, ?_, h.status,
      fun _ => MainPc.noConfusion⟩
    · have hall := h.rest hb
      rw [toSend_of_ne (by rw [hmain]; exact MainPc.noConfusion)] at hall
      exact hall
    · rintro (h | h) <;> cases h
  | readFails hmain hb =>
    have hbroken : ∀ {p : Prop}, c.broken = false → p := fun hb' => by cases hb.symm.trans hb'
    refine ⟨h.sent, hbroken, MainPc.noConfusion, h.shut, h.closed, h.got, hbroken, ?_, h.status, hbroken⟩
    rintro (h | h) <;> cases h
  | join hmain htw =>
    refine ⟨h.sent, fun hb => ?_, MainPc.noConfusion, h.shut, h.closed, h.got, fun hb _ _ => ?_, fun _ => htw, h.status,
      fun _ => MainPc.noConfusion⟩
    · have hall := h.rest hb
      rw [toSend_of_ne (by rw [hmain]; exact MainPc.noConfusion)] at hall
      exact hall
    · exact h.behind hb (by rw [hmain]; exact MainPc.noConfusion) (by rw [hmain]; exact MainPc.noConfusion)
  | finish status hmain hstatus =>
    refine ⟨h.sent, fun hb => ?_, MainPc.noConfusion, h.shut, h.closed, h.got, fun _ _ _ => ?_,
      fun _ => h.joined (.inl hmain), ?_, fun _ _ => hstatus.symm⟩
    · have hall := h.rest hb
      rw [toSend_of_ne (by rw [hmain]; exact MainPc.noConfusion)] at hall
      exact hall
    · show c.trailing.isSome = true
      rw [hstatus]
      rfl
    · rintro _ ⟨⟩
      exact hstatus
  | finishFails hmain hb =>
    have hbroken : ∀ {p : Prop}, c.broken = false → p := fun hb' => by cases hb.symm.trans hb'
    exact ⟨h.sent, hbroken, MainPc.noConfusion, h.shut, h.closed, h.got, hbroken, fun _ => h.joined (.inl hmain), h.status,
      hbroken⟩
  | trailing status hb hnone =>
    refine ⟨h.sent, h.rest, h.fresh, h.shut, h.closed, ?_, fun _ _ _ => rfl, h.joined, ?_, ?_⟩
    · show c.got ++ [Frame.status status] = c.printed.map Frame.words ++ _
      rw [h.got, hnone]
      simp
    · intro status' hstatus
      cases hnone.symm.trans (h.status status' hstatus)
    · intro _ hmain
      have hmain : c.main = .done := hmain
      have hsome := h.behind hb (by rw [hmain]; exact MainPc.noConfusion) (by rw [hmain]; exact MainPc.noConfusion)
      rw [hnone] at hsome
      cases hsome
  | breaks =>
    exact ⟨h.sent, fun hb => Bool.noConfusion hb, h.fresh, h.shut, fun hb => Bool.noConfusion hb, h.got,
      fun hb => Bool.noConfusion hb, h.joined, h.status, fun hb => Bool.noConfusion hb⟩

theorem Step.lawful (hs : Step c d c') :
    c.sent <+: c'.sent ∧ c'.got = c.got ++ d ∧ (c.shut = true → c'.shut = true ∧ c'.sent = c.sent) := by
  cases hs with
  | call _ _ hopen | write _ _ _ hopen =>
    exact ⟨List.prefix_append _ _, (List.append_nil _).symm, fun hshut => by cases hopen.symm.trans hshut⟩
  | writesDone _ _ _ => exact ⟨List.prefix_refl _, (List.append_nil _).symm, fun _ => ⟨rfl, rfl⟩⟩
  | read _ _ _ _ | trailing _ _ _ => exact ⟨List.prefix_refl _, rfl, fun hshut => ⟨hshut, rfl⟩⟩
  | callFails _ _ | writeFails _ _ _ | writesDoneFails _ _ _ | readEnd _ _ | readFails _ _ | join _ _ | finish _ _ _
  | finishFails _ _ | breaks =>
    exact ⟨List.prefix_refl _, (List.append_nil _).symm, fun hshut => ⟨hshut, rfl⟩⟩

/-- What the two threads have to do for `size` frames that come from the server. -/
def work (size : Nat) (c : ChatClient) : Nat := (size - c.got.length) + c.tw.work + c.main.work

theorem Step.work_lt (hs : Step c d c') (hb : c'.broken = false) (hsize : c'.got.length ≤ size) :
    c'.work size < c.work size := by
  cases hs with
  | call hmain _ _ | callFails hmain _ | readEnd hmain _ | readFails hmain _ | join hmain _ | finish _ hmain _
  | finishFails hmain _ =>
    simp only [work, hmain, MainPc.work]
    omega
  | write _ htw _ _ | writeFails _ htw _ | writesDone _ htw _ | writesDoneFails _ htw _ =>
    simp only [work, htw, WriterPc.work, List.length_cons, List.length_nil]
    omega
  | read _ _ _ _ | trailing _ _ _ =>
    simp only [work, List.length_append, List.length_singleton] at hsize ⊢
    omega
  | breaks => cases hb

/-- A client that can do nothing by itself has written all of it, and its caller is done or in `Read`. -/
theorem Inv.blocked (h : c.Inv messages) (hb : c.broken = false) (hstuck : ∀ c', Step c [] c' → c'.broken = true) :
    c.shut = true ∧ c.tw = .done ∧ (c.main = .done ∨ c.main = .read ∧ c.trailing = none) := by
  have hopen : ∀ {c' : ChatClient} {p : Prop}, Step c [] c' → c'.broken = c.broken → p := fun hs hsame => by
    cases (hstuck _ hs).symm.trans (hsame.trans hb)
  have hmain : c.main ≠ .call := fun hmain => hopen (.call hmain hb (h.not_shut (h.fresh hmain))) rfl
  have htw : c.tw = .done := by
    cases htw : c.tw with
    | done => rfl
    | loop left =>
      have hshut := h.not_shut (by rw [htw]; exact WriterPc.noConfusion)
      cases left with
      | nil => exact hopen (.writesDone hmain htw hb) rfl
      | cons msg left => exact hopen (.write hmain htw hb hshut) rfl
  refine ⟨h.closed hb htw, htw, ?_⟩
  cases hpc : c.main with
  | call => exact absurd hpc hmain
  | read =>
    refine .inr ⟨rfl, ?_⟩
    by_contra hsome
    exact hopen (.readEnd hpc (Option.isSome_iff_ne_none.mpr hsome)) rfl
  | join => exact hopen (.join hpc htw) rfl
  | finish =>
    obtain ⟨status, hstatus⟩ := Option.isSome_iff_exists.mp
      (h.behind hb hmain (by rw [hpc]; exact MainPc.noConfusion))
    exact hopen (.finish status hpc hstatus) rfl
  | done => exact .inl rfl

theorem inv_of_reach (h : (clientEnd messages).Reach c) : c.Inv messages :=
  h.inv (I := Inv messages) (Inv.start messages) fun _ _ _ _ hinv hs => hinv.step hs.1

/-- What `tw` writes goes out and what comes in is printed, whichever thread goes first. -/
theorem sound (messages : List String) : (clientEnd messages).Sound messages where
  toSafe := {
    lawful := {
      sent_start := rfl
      got_start := rfl
      ended_start := rfl
      sent := fun hs => hs.1.lawful.1
      got := fun hs => hs.1.lawful.2.1
      shut := fun hs => hs.1.lawful.2.2
      ended := fun _ h => .inl h }
    sent := fun h => (inv_of_reach h).sent
    shut := fun h hshut => ((inv_of_reach h).shut hshut).1
    got := fun {c} h => ⟨ChatClient.trailing c, (inv_of_reach h).got,
      fun hreported => (inv_of_reach h).status .ok (eq_of_beq hreported)⟩ }
  terminates := ⟨work, fun _ hs hb hsize => hs.1.work_lt hb hsize⟩
  blocked {c} h hb hstuck := by
    have hinv : Inv messages c := inv_of_reach h
    obtain ⟨hshut, htw, hmain⟩ := hinv.blocked hb fun c' hs => hstuck c' ⟨hs, rfl⟩
    refine ⟨hshut, ?_⟩
    have hgot := hinv.got
    rcases hmain with hmain | ⟨hmain, hnone⟩
    · obtain ⟨status, hstatus⟩ := Option.isSome_iff_exists.mp
        (hinv.behind hb (by rw [hmain]; exact MainPc.noConfusion) (by rw [hmain]; exact MainPc.noConfusion))
      rw [hstatus] at hgot
      refine .inl ⟨status, ⟨hmain, htw⟩, hgot, ?_⟩
      rintro rfl
      exact beq_iff_eq.mpr ((hinv.told hb hmain).trans hstatus)
    · rw [hnone] at hgot
      refine .inr ⟨hgot.trans (List.append_nil _), fun frame hframe => ?_⟩
      cases frame with
      | call => exact absurd rfl hframe
      | words content => exact ⟨_, ⟨.read content hmain hb hnone, rfl⟩, hb⟩
      | status status => exact ⟨_, ⟨.trailing status hb hnone, rfl⟩, hb⟩

end ChatClient

/-! ### What the service keeps -/

namespace ChatServiceImpl
variable {s s' : ChatServiceImpl} {d out : List Frame} {e : Bool} {g g' : Stage}

/-- Where the loop stands, and whether the status has been sent. -/
def At (s : ChatServiceImpl) (g : Stage) : Prop := s.stage = g ∧ s.shut = g.isDone

theorem Step.lawful (hs : Step s d e s') : s.sent <+: s'.sent ∧ s'.got = s.got ++ d ∧
    (s.shut = true → s'.shut = true ∧ s'.sent = s.sent) ∧ (s'.ended = true → s.ended = true ∨ e = true) := by
  cases hs with
  | call _ _ | read _ _ _ => exact ⟨List.prefix_refl _, rfl, fun hshut => ⟨hshut, rfl⟩, .inl⟩
  | readEnd _ _ => exact ⟨List.prefix_refl _, (List.append_nil _).symm, fun hshut => ⟨hshut, rfl⟩, fun _ => .inr rfl⟩
  | write _ _ hopen | finish _ _ hopen =>
    exact ⟨List.prefix_append _ _, (List.append_nil _).symm, fun hshut => (by cases hopen.symm.trans hshut), .inl⟩
  | readFails _ _ | writeFails _ _ | finishFails _ _ | breaks =>
    exact ⟨List.prefix_refl _, (List.append_nil _).symm, fun hshut => ⟨hshut, rfl⟩, .inl⟩

/-- On a broken connection the loop runs out. -/
theorem Step.of_broken (hs : Step s d e s') (hb : s'.broken = true) :
    s'.got = s.got ∧ s'.sent = s.sent ∧ s'.shut = s.shut ∧ s'.ended = s.ended := by
  cases hs with
  | call _ hopen | read _ _ hopen | readEnd _ hopen | write _ hopen _ | finish _ hopen _ => cases hopen.symm.trans hb
  | readFails _ _ | writeFails _ _ | finishFails _ _ | breaks => exact ⟨rfl, rfl, rfl, rfl⟩

theorem At.step (ha : s.At g) (hs : Step s d e s') (hb : s'.broken = false) :
    ∃ out g', g.Step d e out g' ∧ s'.At g' ∧ s'.sent = s.sent ++ out ∧ s'.ended = (s.ended || e) := by
  obtain ⟨hstage, hshut⟩ := ha
  have hfails : ∀ {p : Prop}, s'.broken = true → p := fun hbroken => by cases hb.symm.trans hbroken
  cases hs with
  | call hg _ =>
    cases hstage.symm.trans hg
    exact ⟨[], .read, .call, ⟨rfl, hshut⟩, (List.append_nil _).symm, (Bool.or_false _).symm⟩
  | read content hg _ =>
    cases hstage.symm.trans hg
    exact ⟨[], .write content, .read content, ⟨rfl, hshut⟩, (List.append_nil _).symm, (Bool.or_false _).symm⟩
  | readEnd hg _ =>
    cases hstage.symm.trans hg
    exact ⟨[], .finish, .readEnd, ⟨rfl, hshut⟩, (List.append_nil _).symm, (Bool.or_true _).symm⟩
  | @write content hg _ _ =>
    cases hstage.symm.trans hg
    exact ⟨[.words content], .read, .write content, ⟨rfl, hshut⟩, rfl, (Bool.or_false _).symm⟩
  | finish hg _ _ =>
    cases hstage.symm.trans hg
    exact ⟨[.status .ok], .done, .finish, ⟨rfl, rfl⟩, rfl, (Bool.or_false _).symm⟩
  | readFails _ hbroken | writeFails _ hbroken | finishFails _ hbroken => exact hfails hbroken
  | breaks => exact hfails rfl

theorem At.enabled (ha : s.At g) (hb : s.broken = false) (hg : g.Step d e out g') :
    ∃ s', Step s d e s' ∧ s'.broken = false := by
  obtain ⟨hstage, hshut⟩ := ha
  cases hg with
  | call => exact ⟨_, .call hstage hb, hb⟩
  | read content => exact ⟨_, .read content hstage hb, hb⟩
  | readEnd => exact ⟨_, .readEnd hstage hb, hb⟩
  | write content => exact ⟨_, .write hstage hb hshut, hb⟩
  | finish => exact ⟨_, .finish hstage hb hshut, hb⟩

theorem Step.holds (hs : Step s d e s') (hb : s'.broken = false) : s.broken = false := by
  cases hs with
  | breaks => cases hb
  | _ => exact hb

theorem follows : serverEnd.Follows stage At where
  lawful := {
    sent_start := rfl
    got_start := rfl
    ended_start := rfl
    sent hs := hs.lawful.1
    got hs := hs.lawful.2.1
    shut hs := hs.lawful.2.2.1
    ended hs := hs.lawful.2.2.2 }
  start := ⟨rfl, rfl⟩
  stage ha := ha.1
  shut ha := ha.2
  broken := Step.of_broken
  step := At.step
  holds := Step.holds
  enabled hb ha hg := ha.enabled hb hg
  finished ha := ha.1

end ChatServiceImpl
end HelloWorld.Talk
