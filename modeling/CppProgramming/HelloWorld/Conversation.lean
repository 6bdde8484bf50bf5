import CppProgramming.HelloWorld.EventHandler
import CppProgramming.Lib.Inevitable
import CppProgramming.Lib.Streams

/-! # A talk call and its two ends

A connection carries the call and the words of the client one way, and the words of the server and its status the other
way; it may break down, and from then on an end of it fails every operation. What is at an end of it is any program
(`End`). What a client and a server of `talk` have to keep by themselves (`ClientEnd.Safe`, `ClientEnd.Sound`,
`ServerEnd.Sound`) is enough for what holds between the two: what the client writes comes back word by word, in order,
and nothing else, and the call gets to its end at both sides. -/

namespace HelloWorld.Talk
open Server (Status)

/-- What a connection carries. -/
inductive Frame where
  | call
  | words (content : String)
  | status (status : Status)
  deriving DecidableEq, Repr

/-- What the client has to send. -/
def script (messages : List String) : List Frame := .call :: messages.map .words

/-- The words of a frame. -/
def Frame.content : Frame → Option String
  | .words content => some content
  | _ => none

/-- The words that have gone over a connection. -/
def wordsOf (frames : List Frame) : List String := frames.filterMap Frame.content

theorem script_concat (words : List String) (content : String) :
    script (words ++ [content]) = script words ++ [Frame.words content] := by
  simp [script]

theorem wordsOf_map (words : List String) : wordsOf (words.map .words) = words := by
  simp [wordsOf, List.filterMap_map, Function.comp_def, Frame.content]

theorem wordsOf_script (words : List String) : wordsOf (script words) = words := wordsOf_map words

theorem wordsOf_append (frames frames' : List Frame) : wordsOf (frames ++ frames') = wordsOf frames ++ wordsOf frames' :=
  List.filterMap_append

theorem wordsOf_status (status : Option Status) : wordsOf (status.map Frame.status).toList = [] := by
  cases status <;> rfl

theorem wordsOf_begin {frames frames' : List Frame} (h : frames <+: frames') : wordsOf frames <+: wordsOf frames' :=
  h.filterMap _

theorem script_inj {words words' : List String} (h : script words = script words') : words = words' := by
  rw [← wordsOf_script words, h, wordsOf_script]

/-- A status comes last. -/
theorem words_eq_of_status {words words' : List String} {status status' : Status}
    (h : words.map Frame.words ++ [Frame.status status] <+: words'.map .words ++ [Frame.status status']) :
    words = words' ∧ status = status' := by
  obtain ⟨rest, hrest⟩ := h
  rcases List.eq_nil_or_concat rest with rfl | ⟨rest, frame, rfl⟩
  · rw [List.append_nil] at hrest
    obtain ⟨hmap, hstatus⟩ := List.append_inj' hrest rfl
    cases hstatus
    exact ⟨by rw [← wordsOf_map words, hmap, wordsOf_map], rfl⟩
  · have hinit : words.map Frame.words ++ [Frame.status status] ++ rest = words'.map .words := by
      refine (List.append_inj' (?_ : _ ++ [frame] = _ ++ [Frame.status status']) rfl).1
      simpa using hrest
    have hmem : Frame.status status ∈ words'.map Frame.words := by
      rw [← hinit]
      simp
    simp at hmem

/-! ### The ends -/

/-- A program at an end of the connection. A step is given what arrives, and whether it is told that the other side has
    nothing more to send. -/
structure End where
  State : Type
  start : State
  Step : State → List Frame → Bool → State → Prop
  sent : State → List Frame
  got : State → List Frame
  shut : State → Bool
  ended : State → Bool
  broken : State → Bool

/-- A client: what it has printed, whether it has seen the call end with a status that is ok, and when it is done. -/
structure ClientEnd extends End where
  printed : State → List String
  reported : State → Bool
  Finished : State → Prop

/-- A server, and when it is done. -/
structure ServerEnd extends End where
  Finished : State → Prop

namespace End

/-- The states that the program gets to, whatever arrives. -/
inductive Reach (E : End) : E.State → Prop
  | start : Reach E E.start
  | step {s s' : E.State} {d : List Frame} {e : Bool} : Reach E s → E.Step s d e s' → Reach E s'

theorem Reach.inv {E : End} {I : E.State → Prop} {s : E.State} (h : E.Reach s) (hstart : I E.start)
    (hstep : ∀ s d e s', I s → E.Step s d e s' → I s') : I s := by
  induction h with
  | start => exact hstart
  | step _ hs ih => exact hstep _ _ _ _ ih hs

/-- A program takes what arrives, does not take back what it has sent, sends nothing more once it has shut its stream,
    and believes what it is told. -/
structure Lawful (E : End) : Prop where
  sent_start : E.sent E.start = []
  got_start : E.got E.start = []
  ended_start : E.ended E.start = false
  sent : ∀ {s d e s'}, E.Step s d e s' → E.sent s <+: E.sent s'
  got : ∀ {s d e s'}, E.Step s d e s' → E.got s' = E.got s ++ d
  shut : ∀ {s d e s'}, E.Step s d e s' → E.shut s = true → E.shut s' = true ∧ E.sent s' = E.sent s
  ended : ∀ {s d e s'}, E.Step s d e s' → E.ended s' = true → E.ended s = true ∨ e = true

/-- While the connection holds, each step leaves less to do for `size` frames that come in. -/
def Terminates (E : End) : Prop :=
  ∃ work : Nat → E.State → Nat, ∀ {s d e s' size}, E.Reach s → E.Step s d e s' → E.broken s' = false →
    (E.got s').length ≤ size → work size s' < work size s

end End

/-- A client whose user writes `messages`. It sends what it has to, in order, and prints what comes in. -/
structure ClientEnd.Safe (C : ClientEnd) (messages : List String) : Prop where
  lawful : C.Lawful
  sent : ∀ {c}, C.Reach c → C.sent c <+: script messages
  shut : ∀ {c}, C.Reach c → C.shut c = true → C.sent c = script messages
  got : ∀ {c}, C.Reach c → ∃ trailing : Option Status,
    C.got c = (C.printed c).map Frame.words ++ (trailing.map Frame.status).toList ∧
      (C.reported c = true → trailing = some .ok)

/-- When such a client can do nothing by itself, it has sent all that it has to, and it is done or waits for what comes
    next. -/
structure ClientEnd.Sound (C : ClientEnd) (messages : List String) : Prop extends C.Safe messages where
  terminates : C.Terminates
  blocked : ∀ {c}, C.Reach c → C.broken c = false → (∀ c', C.Step c [] false c' → C.broken c' = true) →
    C.shut c = true ∧
      ((∃ status : Status, C.Finished c ∧ C.got c = (C.printed c).map Frame.words ++ [Frame.status status] ∧
          (status = .ok → C.reported c = true)) ∨
        C.got c = (C.printed c).map .words ∧
          ∀ frame, frame ≠ .call → ∃ c', C.Step c [frame] false c' ∧ C.broken c' = false)

/-- What a server has got and sent, and whether the status is under it. -/
inductive Echoes : List Frame → List Frame → Bool → Prop
  | waiting : Echoes [] [] false
  | serving (words more : List String) : more.length ≤ 1 → Echoes (script (words ++ more)) (words.map .words) false
  | done (words : List String) : Echoes (script words) (words.map Frame.words ++ [Frame.status .ok]) true

/-- A server echoes what comes in. When it can do nothing and the client has sent all of it, with `up` on its way, it is
    done. -/
structure ServerEnd.Sound (S : ServerEnd) : Prop where
  lawful : S.Lawful
  echoes : ∀ {s}, S.Reach s → Echoes (S.got s) (S.sent s) (S.shut s)
  ended : ∀ {s}, S.Reach s → S.shut s = true → S.ended s = true
  terminates : S.Terminates
  blocked : ∀ {s up messages}, S.Reach s → S.broken s = false → S.got s ++ up = script messages →
    (S.ended s = true → up = []) →
    (∀ d e s', S.Step s d e s' → d <+: up → (e = true → d = up) → S.broken s' = true) →
    S.Finished s ∧ S.sent s = messages.map Frame.words ++ [Frame.status .ok]

section Echoes
variable {got sent : List Frame} {shut : Bool}

theorem Echoes.words (h : Echoes got sent shut) :
    wordsOf sent <+: wordsOf got ∧ (wordsOf got).length ≤ (wordsOf sent).length + 1 := by
  cases h with
  | waiting => exact ⟨List.prefix_refl _, Nat.zero_le _⟩
  | serving words more hmore =>
    rw [wordsOf_map, wordsOf_script, List.length_append]
    exact ⟨List.prefix_append _ _, Nat.add_le_add_left hmore _⟩
  | done words =>
    have hstatus : wordsOf [Frame.status .ok] = [] := rfl
    rw [wordsOf_append, wordsOf_map, wordsOf_script, hstatus, List.append_nil]
    exact ⟨List.prefix_refl _, Nat.le_succ _⟩

/-- What the server has when its status is under way. -/
theorem Echoes.of_status {status : Status} (h : Echoes got sent shut) (hs : Frame.status status ∈ sent) :
    shut = true ∧ ∃ words, sent = words.map Frame.words ++ [Frame.status .ok] ∧ got = script words := by
  cases h with
  | waiting => cases hs
  | serving words more _ => simp at hs
  | done words => exact ⟨rfl, words, rfl, rfl⟩

theorem Echoes.length_le (h : Echoes got sent shut) : sent.length ≤ got.length := by
  cases h with
  | waiting => exact Nat.zero_le _
  | serving words more _ =>
    simp only [script, List.length_cons, List.length_map, List.length_append]
    omega
  | done words => simp [script]

end Echoes

/-! ### The connection -/

/-- The two ends of the connection. -/
inductive Side where
  | client
  | server
  deriving DecidableEq

/-- The end at the other side. -/
def Side.other : Side → Side
  | .client => .server
  | .server => .client

theorem Side.eq_other {i j : Side} (h : j ≠ i) : j = i.other := by
  cases i <;> cases j <;> first | rfl | exact absurd rfl h

/-- The program at each side. -/
def ends (C : ClientEnd) (S : ServerEnd) : Side → End
  | .client => C.toEnd
  | .server => S.toEnd

/-- Two programs and a connection. -/
def connection (E : Side → End) : Streams.Protocol Side Frame fun i => (E i).State where
  step i s d e s' := (E i).Step s (d i.other) (e i.other) s' ∧ d i = [] ∧ e i = false
  sent i s j := if j = i then [] else (E i).sent s
  got i s j := if j = i then [] else (E i).got s
  shut i s j := if j = i then false else (E i).shut s
  ended i s j := if j = i then false else (E i).ended s

/-- A client and a server of a talk call. -/
abbrev talk (C : ClientEnd) (S : ServerEnd) := connection (ends C S)

/-- Before the call. -/
def starts (C : ClientEnd) (S : ServerEnd) (i : Side) : (ends C S i).State := (ends C S i).start

/-- The parties of a call, and what is on its way. -/
abbrev Net (C : ClientEnd) (S : ServerEnd) := Streams.Net Side Frame fun i => (ends C S i).State

theorem connection_lawful {E : Side → End} (h : ∀ i, (E i).Lawful) : (connection E).Lawful where
  sent {i s d e s'} hstep j := by
    by_cases hj : j = i
    · simp [connection, hj]
    · simpa [connection, hj] using (h i).sent hstep.1
  got {i s d e s'} hstep j := by
    by_cases hj : j = i
    · subst hj
      simpa [connection] using hstep.2.1.symm
    · simp only [connection, hj, if_false]
      rw [Side.eq_other hj]
      exact (h i).got hstep.1
  shut {i s d e s'} hstep j hshut := by
    by_cases hj : j = i
    · simp [connection, hj] at hshut
    · simp only [connection, hj, if_false] at hshut ⊢
      exact (h i).shut hstep.1 hshut
  ended {i s d e s'} hstep j hended := by
    by_cases hj : j = i
    · simp [connection, hj] at hended
    · simp only [connection, hj, if_false] at hended ⊢
      rw [Side.eq_other hj]
      exact (h i).ended hstep.1 hended

section Reach
variable {C : ClientEnd} {S : ServerEnd} {messages : List String} {n : Net C S}

/-- The client's end of the call. -/
def client (n : Net C S) : C.State := n.party .client

/-- The server's end of the call. -/
def server (n : Net C S) : S.State := n.party .server

/-- In every state that is reached the connection is faithful, and each program has come there by itself. -/
theorem reach_ends (hC : C.Lawful) (hS : S.Lawful) (h : (talk C S).Reach (starts C S) n) :
    (talk C S).Faithful n ∧ C.Reach (client n) ∧ S.Reach (server n) := by
  have hlawful : ∀ i, (ends C S i).Lawful := fun i => by
    cases i with
    | client => exact hC
    | server => exact hS
  have hsent : ∀ i j, (talk C S).sent i (starts C S i) j = [] := fun i j => by
    by_cases hj : j = i
    · exact if_pos hj
    · exact (if_neg hj).trans (hlawful i).sent_start
  have hgot : ∀ i j, (talk C S).got i (starts C S i) j = [] := fun i j => by
    by_cases hj : j = i
    · exact if_pos hj
    · exact (if_neg hj).trans (hlawful i).got_start
  have hended : ∀ i j, (talk C S).ended i (starts C S i) j = false := fun i j => by
    by_cases hj : j = i
    · exact if_pos hj
    · exact (if_neg hj).trans (hlawful i).ended_start
  have hparty := h.party (connection_lawful hlawful) hsent hgot hended (I := fun i => (ends C S i).Reach)
    (fun _ => .start) fun _ _ _ _ _ _ hI _ hstep => (hI _).step hstep.1
  exact ⟨h.faithful (connection_lawful hlawful) hsent hgot hended, hparty .client, hparty .server⟩

theorem client_got_link (h : (talk C S).Faithful n) :
    C.got (client n) ++ n.link .server .client = S.sent (server n) := h.conserved .server .client

theorem server_got_link (h : (talk C S).Faithful n) :
    S.got (server n) ++ n.link .client .server = C.sent (client n) := h.conserved .client .server

end Reach
/-! ### What may be relied on -/

/-- What may be relied on at any time: the client has printed a begin of what the server has echoed, the server has
    echoed what it has got but for one message at most, and has got a begin of what the user writes. When the client
    has seen the call end well, that is all of it, and the server has been told so. -/
structure Echoed {C : ClientEnd} {S : ServerEnd} (messages : List String) (n : Net C S) : Prop where
  printed : C.printed (client n) <+: wordsOf (S.sent (server n))
  echoed : wordsOf (S.sent (server n)) <+: wordsOf (S.got (server n))
  behind : (wordsOf (S.got (server n))).length ≤ (wordsOf (S.sent (server n))).length + 1
  got : wordsOf (S.got (server n)) <+: messages
  reported : C.reported (client n) = true →
    C.printed (client n) = messages ∧ S.got (server n) = script messages ∧ S.ended (server n) = true

/-- The connection has not broken down. -/
def Holds {C : ClientEnd} {S : ServerEnd} (n : Net C S) : Prop :=
  C.broken (client n) = false ∧ S.broken (server n) = false

/-- A step while the connection holds. -/
def Proceeds {C : ClientEnd} {S : ServerEnd} (n n' : Net C S) : Prop := (talk C S).Goes n n' ∧ Holds n'

/-- The call is complete at both sides, and the client has printed all of it and has seen it end well. -/
structure Complete {C : ClientEnd} {S : ServerEnd} (messages : List String) (n : Net C S) : Prop where
  printed : C.printed (client n) = messages
  reported : C.reported (client n) = true
  client : C.Finished (client n)
  server : S.Finished (server n)

section Sound
variable {C : ClientEnd} {S : ServerEnd} {messages : List String} {n : Net C S}

/-- A safe client and a sound server, whatever they and the connection do, and whenever it breaks down. -/
theorem echoes_of_sound (hC : C.Safe messages) (hS : S.Sound) (h : (talk C S).Reach (starts C S) n) :
    Echoed messages n := by
  obtain ⟨hfaithful, hclient, hserver⟩ := reach_ends hC.lawful hS.lawful h
  have hdown := client_got_link hfaithful
  have hup := server_got_link hfaithful
  have hechoes := hS.echoes hserver
  obtain ⟨trailing, hgot, hreported⟩ := hC.got hclient
  have hprinted : wordsOf (C.got (client n)) = C.printed (client n) := by
    rw [hgot, wordsOf_append, wordsOf_map, wordsOf_status, List.append_nil]
  have hbegin : C.got (client n) <+: S.sent (server n) := hdown ▸ List.prefix_append _ _
  have hscript : S.got (server n) <+: script messages := by
    refine List.IsPrefix.trans ?_ (hC.sent hclient)
    exact hup ▸ List.prefix_append _ _
  refine ⟨?_, hechoes.words.1, hechoes.words.2, ?_, ?_⟩
  · rw [← hprinted]
    exact wordsOf_begin hbegin
  · rw [← wordsOf_script messages]
    exact wordsOf_begin hscript
  · intro hdone
    have hall : C.got (client n) = (C.printed (client n)).map Frame.words ++ [Frame.status .ok] := by
      rw [hgot, hreported hdone]
      rfl
    have hmem : Frame.status .ok ∈ C.got (client n) := by
      rw [hall]
      simp
    obtain ⟨hshut, words, hsent, hwords⟩ := hechoes.of_status (hbegin.subset hmem)
    have hended := hS.ended hserver hshut
    obtain ⟨hclosed, hlast⟩ := hfaithful.ended .client .server hended
    have hsame : S.got (server n) = C.sent (client n) := hlast
    have hcomplete : script words = script messages := by
      rw [← hwords, hsame]
      exact hC.shut hclient hclosed
    rw [hall, hsent] at hbegin
    exact ⟨(words_eq_of_status hbegin).1.trans (script_inj hcomplete), hwords.trans hcomplete, hended⟩

/-- What comes in does not exceed what the user writes. -/
theorem got_length (hC : C.Safe messages) (hS : S.Sound) (h : (talk C S).Reach (starts C S) n) :
    (C.got (client n)).length ≤ messages.length + 1 ∧ (S.got (server n)).length ≤ messages.length + 1 := by
  obtain ⟨hfaithful, hclient, hserver⟩ := reach_ends hC.lawful hS.lawful h
  have hdown := congrArg List.length (client_got_link hfaithful)
  have hup := congrArg List.length (server_got_link hfaithful)
  have hsent := (hC.sent hclient).length_le
  have hechoes := (hS.echoes hserver).length_le
  simp only [List.length_append] at hdown hup
  simp only [script, List.length_cons, List.length_map] at hsent
  omega

/-- What arrives from one side. -/
def fromSide (i : Side) (d : List Frame) : Side → List Frame := fun j => if j = i then d else []

/-- A step of the client by itself. -/
theorem goes_client {d : List Frame} {c' : C.State} (hs : C.Step (client n) d false c')
    (hd : d <+: n.link .server .client) :
    (talk C S).Goes n ⟨Function.update n.party .client c', (talk C S).links n .client (fromSide .server d) c'⟩ := by
  refine .step (e := fun _ => false) ⟨hs, rfl, rfl⟩ (fun j => ?_) fun j h => Bool.noConfusion h
  cases j with
  | client => exact List.nil_prefix
  | server => exact hd

/-- A step of the server by itself. -/
theorem goes_server {d : List Frame} {e : Bool} {s' : S.State} (hs : S.Step (server n) d e s')
    (hd : d <+: n.link .client .server) (he : e = true → C.shut (client n) = true ∧ d = n.link .client .server) :
    (talk C S).Goes n ⟨Function.update n.party .server s', (talk C S).links n .server (fromSide .client d) s'⟩ := by
  have hstep : (talk C S).step .server (server n) (fromSide .client d) (fun j => decide (j = .client) && e) s' :=
    ⟨hs, rfl, rfl⟩
  refine .step hstep (fun j => ?_) fun j htold => ?_
  · cases j with
    | client => exact hd
    | server => exact List.nil_prefix
  · cases j with
    | client => exact he htold
    | server => cases htold

/-- When nothing can be done any more, the call is complete. -/
theorem complete_of_stuck (hC : C.Sound messages) (hS : S.Sound) (h : (talk C S).Reach (starts C S) n)
    (hholds : Holds n) (hstuck : ∀ n', ¬Proceeds n n') : Complete messages n := by
  obtain ⟨hfaithful, hclient, hserver⟩ := reach_ends hC.lawful hS.lawful h
  have hup := server_got_link hfaithful
  have hdown := client_got_link hfaithful
  have hnoClient : ∀ d c', C.Step (client n) d false c' → d <+: n.link .server .client → C.broken c' = true := by
    intro d c' hs hd
    by_contra hb
    exact hstuck _ ⟨goes_client hs hd, Bool.eq_false_of_not_eq_true hb, hholds.2⟩
  have hnoServer : ∀ d e s', S.Step (server n) d e s' → d <+: n.link .client .server →
      (e = true → C.shut (client n) = true ∧ d = n.link .client .server) → S.broken s' = true := by
    intro d e s' hs hd he
    by_contra hb
    exact hstuck _ ⟨goes_server hs hd he, hholds.1, Bool.eq_false_of_not_eq_true hb⟩
  obtain ⟨hshut, hwaits⟩ := hC.blocked hclient hholds.1 fun c' hs => hnoClient [] c' hs List.nil_prefix
  have hsent := hC.shut hclient hshut
  -- The client has sent all of it, so that the server gets to its end.
  obtain ⟨hfinished, hechoed⟩ := hS.blocked hserver hholds.2 (hup.trans hsent)
    (fun hended => by
      have hlast : S.got (server n) = C.sent (client n) := (hfaithful.ended .client .server hended).2
      rw [hlast] at hup
      exact List.append_right_eq_self.mp hup)
    fun d e s' hs hd he => hnoServer d e s' hs hd fun htold => ⟨hshut, he htold⟩
  rw [hechoed] at hdown
  rcases hwaits with ⟨status, hdone, hgot, hreported⟩ | ⟨hgot, hnext⟩
  · have hbegin : (C.printed (client n)).map Frame.words ++ [Frame.status status] <+:
        messages.map Frame.words ++ [Frame.status .ok] := hgot ▸ hdown ▸ List.prefix_append _ _
    obtain ⟨hprinted, hstatus⟩ := words_eq_of_status hbegin
    exact ⟨hprinted, hreported hstatus, hdone, hfinished⟩
  · -- Something is on the way: the next words or the status.
    cases hlink : n.link .server .client with
    | nil =>
      rw [hlink, List.append_nil, hgot] at hdown
      have hmem : Frame.status .ok ∈ (C.printed (client n)).map Frame.words := by
        rw [hdown]
        simp
      simp at hmem
    | cons frame rest =>
      have hmem : frame ∈ messages.map Frame.words ++ [Frame.status .ok] := by
        rw [← hdown, hlink]
        simp
      have hframe : frame ≠ .call := by
        rintro rfl
        simp at hmem
      obtain ⟨c', hs, hb⟩ := hnext frame hframe
      cases hb.symm.trans (hnoClient [frame] c' hs (hlink ▸ ⟨rest, rfl⟩))

/-- While the connection holds, the call cannot but get to its end. -/
theorem complete_of_sound (hC : C.Sound messages) (hS : S.Sound) (h : (talk C S).Reach (starts C S) n)
    (hholds : Holds n) : Inevitable Proceeds Proceeds (Complete messages) n := by
  obtain ⟨workC, hworkC⟩ := hC.terminates
  obtain ⟨workS, hworkS⟩ := hS.terminates
  -- What both sides have to do for what can come in.
  let work : Net C S → Nat := fun n => workC (messages.length + 1) (client n) + workS (messages.length + 1) (server n)
  refine Inevitable.of_measure (I := fun n => (talk C S).Reach (starts C S) n ∧ Holds n) work ?_ ?_ ⟨h, hholds⟩
  · rintro n n' ⟨hreach, -⟩ ⟨hgo, hholds⟩
    obtain ⟨-, hclient, hserver⟩ := reach_ends hC.lawful hS.lawful hreach
    obtain ⟨hdown, hup⟩ := got_length hC.toSafe hS (hreach.goes hgo)
    refine ⟨⟨hreach.goes hgo, hholds⟩, ?_⟩
    cases hgo with
    | @step i d e s' hs hd he =>
      cases i with
      | client => exact Nat.add_lt_add_right (hworkC hclient hs.1 hholds.1 hdown) _
      | server => exact Nat.add_lt_add_left (hworkS hserver hs.1 hholds.2 hup) _
  · rintro n ⟨hreach, hholds⟩ hstuck
    exact complete_of_stuck hC hS hreach hholds hstuck

end Sound
end HelloWorld.Talk
