import CppProgramming.HelloWorld.Conversation

/-! # An echo server

What `talk` is for, without the program that does it: the call comes in, each message goes back before the next one is
read, and at the end of the client's words the status is ok. A server that follows it while the connection holds, and
does nothing on the connection when it is broken, is a sound one. -/

namespace HelloWorld.Talk

/-- Where a server is. -/
inductive Stage where
  | call
  | read
  | write (content : String)
  | finish
  | done
  deriving DecidableEq

namespace Stage

/-- A step, with what comes in, whether the client has ended, and what goes out. -/
inductive Step : Stage → List Frame → Bool → List Frame → Stage → Prop
  | call : Step .call [.call] false [] .read
  | read (content : String) : Step .read [.words content] false [] (.write content)
  | readEnd : Step .read [] true [] .finish
  | write (content : String) : Step (.write content) [] false [.words content] .read
  | finish : Step .finish [] false [.status .ok] .done

/-- What has come in and gone out, whether the status has, and whether the client has ended. -/
inductive Serves : Stage → List Frame → List Frame → Bool → Bool → Prop
  | call : Serves .call [] [] false false
  | read (words : List String) : Serves .read (script words) (words.map .words) false false
  | write (words : List String) (content : String) :
      Serves (.write content) (script (words ++ [content])) (words.map .words) false false
  | finish (words : List String) : Serves .finish (script words) (words.map .words) false true
  | done (words : List String) : Serves .done (script words) (words.map Frame.words ++ [Frame.status .ok]) true true

/-- The handler has come to its end. -/
def isDone : Stage → Bool
  | .done => true
  | _ => false

/-- A bound on the steps that are left, with what is still to come in. -/
def work : Stage → Nat
  | .write _ => 3
  | .finish => 1
  | .done => 0
  | _ => 2

variable {stage stage' : Stage} {got sent d out : List Frame} {shut ended e : Bool}

theorem Serves.step (h : Serves stage got sent shut ended) (hs : Step stage d e out stage') :
    Serves stage' (got ++ d) (sent ++ out) stage'.isDone (ended || e) := by
  cases hs with
  | call =>
    cases h
    exact .read []
  | read content =>
    cases h with
    | read words =>
      rw [← script_concat, List.append_nil]
      exact .write words content
  | readEnd =>
    cases h with
    | read words =>
      rw [List.append_nil, List.append_nil]
      exact .finish words
  | write content =>
    cases h with
    | write words _ =>
      have hmap : words.map Frame.words ++ [Frame.words content] = (words ++ [content]).map .words := by simp
      rw [List.append_nil, hmap]
      exact .read (words ++ [content])
  | finish =>
    cases h with
    | finish words =>
      rw [List.append_nil]
      exact .done words

theorem Serves.echoes (h : Serves stage got sent shut ended) : Echoes got sent shut := by
  cases h with
  | call => exact .waiting
  | read words | finish words => simpa using Echoes.serving words [] (Nat.zero_le 1)
  | write words content => exact .serving words [content] (Nat.le_refl 1)
  | done words => exact .done words

theorem Serves.told (h : Serves stage got sent shut ended) (hshut : shut = true) : ended = true := by
  cases h with
  | call | read _ | write _ _ | finish _ => cases hshut
  | done _ => rfl

/-- While something is to come, a step can be taken. -/
theorem Serves.next {up : List Frame} {messages : List String} (h : Serves stage got sent shut ended)
    (hup : got ++ up = script messages) (hlast : ended = true → up = []) :
    (∃ d e out stage', Step stage d e out stage' ∧ d <+: up ∧ (e = true → d = up)) ∨
      stage = .done ∧ sent = messages.map Frame.words ++ [Frame.status .ok] := by
  cases h with
  | call =>
    rw [List.nil_append] at hup
    exact .inl ⟨_, _, _, _, .call, ⟨messages.map .words, hup.symm⟩, Bool.noConfusion⟩
  | read words =>
    left
    cases up with
    | nil => exact ⟨_, _, _, _, .readEnd, List.nil_prefix, fun _ => rfl⟩
    | cons frame up =>
      have htail : words.map Frame.words ++ frame :: up = messages.map .words := (List.cons.inj hup).2
      obtain ⟨content, -, rfl⟩ : ∃ content ∈ messages, Frame.words content = frame := by
        rw [← List.mem_map, ← htail]
        simp
      exact ⟨_, _, _, _, .read content, ⟨up, rfl⟩, Bool.noConfusion⟩
  | write words content => exact .inl ⟨_, _, _, _, .write content, List.nil_prefix, Bool.noConfusion⟩
  | finish words => exact .inl ⟨_, _, _, _, .finish, List.nil_prefix, Bool.noConfusion⟩
  | done words =>
    right
    rw [hlast rfl, List.append_nil] at hup
    exact ⟨rfl, by rw [script_inj hup]⟩

/-- What comes in is paid for by what it was to cost. -/
theorem Step.work_lt {size : Nat} (hs : Step stage d e out stage') (hsize : (got ++ d).length ≤ size) :
    2 * (size - (got ++ d).length) + stage'.work < 2 * (size - got.length) + stage.work := by
  rw [List.length_append] at hsize ⊢
  cases hs <;> simp only [work, List.length_cons, List.length_nil] at hsize ⊢ <;> omega

end Stage

/-- A server that follows the stages while the connection holds: what it does is a step of them, and it can do each. On a
    broken connection nothing comes in or goes out. -/
structure ServerEnd.Follows (S : ServerEnd) (stage : S.State → Stage) (At : S.State → Stage → Prop) : Prop where
  lawful : S.Lawful
  start : At S.start .call
  stage : ∀ {s g}, At s g → stage s = g
  shut : ∀ {s g}, At s g → S.shut s = g.isDone
  broken : ∀ {s d e s'}, S.Step s d e s' → S.broken s' = true →
    S.got s' = S.got s ∧ S.sent s' = S.sent s ∧ S.shut s' = S.shut s ∧ S.ended s' = S.ended s
  step : ∀ {s d e s' g}, At s g → S.Step s d e s' → S.broken s' = false →
    ∃ out g', g.Step d e out g' ∧ At s' g' ∧ S.sent s' = S.sent s ++ out ∧ S.ended s' = (S.ended s || e)
  holds : ∀ {s d e s'}, S.Step s d e s' → S.broken s' = false → S.broken s = false
  enabled : ∀ {s d e g out g'}, S.broken s = false → At s g → g.Step d e out g' →
    ∃ s', S.Step s d e s' ∧ S.broken s' = false
  finished : ∀ {s}, At s .done → S.Finished s

section Follows
variable {S : ServerEnd} {stage : S.State → Stage} {At : S.State → Stage → Prop} {s : S.State}

/-- What holds of the server in every state it gets to. -/
theorem ServerEnd.Follows.serves (h : S.Follows stage At) (hreach : S.Reach s) :
    Echoes (S.got s) (S.sent s) (S.shut s) ∧ (S.shut s = true → S.ended s = true) ∧
      (S.broken s = false → ∃ g, At s g ∧ g.Serves (S.got s) (S.sent s) (S.shut s) (S.ended s)) := by
  induction hreach with
  | start =>
    have hserves : Stage.call.Serves (S.got S.start) (S.sent S.start) (S.shut S.start) (S.ended S.start) := by
      rw [h.lawful.got_start, h.lawful.sent_start, h.shut h.start, h.lawful.ended_start]
      exact .call
    exact ⟨hserves.echoes, hserves.told, fun _ => ⟨.call, h.start, hserves⟩⟩
  | @step s s' d e _ hs ih =>
    obtain ⟨hechoes, hended, hserves⟩ := ih
    cases hb : S.broken s' with
    | true =>
      obtain ⟨hgot, hsent, hshut, hend⟩ := h.broken hs hb
      rw [hgot, hsent, hshut, hend]
      exact ⟨hechoes, hended, Bool.noConfusion⟩
    | false =>
      obtain ⟨g, hat, hg⟩ := hserves (h.holds hs hb)
      obtain ⟨out, g', hstep, hat', hsent, hend⟩ := h.step hat hs hb
      have hg' := hg.step hstep
      rw [h.lawful.got hs, hsent, h.shut hat', hend]
      exact ⟨hg'.echoes, hg'.told, fun _ => ⟨g', hat', hg'⟩⟩

theorem ServerEnd.Follows.sound (h : S.Follows stage At) : S.Sound where
  lawful := h.lawful
  echoes hs := (h.serves hs).1
  ended hs := (h.serves hs).2.1
  terminates := by
    refine ⟨fun size s => 2 * (size - (S.got s).length) + (stage s).work, fun {s d e s' size} hreach hs hb hsize => ?_⟩
    obtain ⟨g, hat, -⟩ := (h.serves hreach).2.2 (h.holds hs hb)
    obtain ⟨out, g', hstep, hat', -⟩ := h.step hat hs hb
    rw [h.lawful.got hs] at hsize
    simp only [h.lawful.got hs, h.stage hat, h.stage hat']
    exact hstep.work_lt hsize
  blocked {s up messages} hreach hb hup hlast hstuck := by
    obtain ⟨g, hat, hg⟩ := (h.serves hreach).2.2 hb
    rcases hg.next hup hlast with ⟨d, e, out, g', hstep, hd, he⟩ | ⟨rfl, hsent⟩
    · obtain ⟨s', hs, hb'⟩ := h.enabled hb hat hstep
      cases hb'.symm.trans (hstuck d e s' hs hd he)
    · exact ⟨h.finished hat, hsent⟩

end Follows
end HelloWorld.Talk
