import CppProgramming.EdgeTriggered.Tables
import CppProgramming.Lib.Execution

/-! # The reversed sentences

What a session owes for a stream of bytes is a function of the stream, however the stream was cut when it came in. A
session hands out exactly that. It does so only when `EPOLLOUT` is reported: `isWritable` is reset after every
`Write`, so what comes in between two reports waits for the next one. -/

namespace EdgeTriggered
open Execution

/-! ### The stream -/

/-- What a session owes for a stream: `[`, the bytes in reverse and `]` for each segment that ends with a dot. -/
def reversedSentences (stream : ByteString) : ByteString :=
  (stream.splitOn dot).dropLast.flatMap fun segment => [bracketOpen] ++ segment.reverse ++ [bracketClose]

/-- The bytes after the last dot. -/
def unfinished (stream : ByteString) : ByteString := (stream.splitOn dot).getLastD []

/-- Splitting a list that goes on: only the last piece is split further. -/
theorem splitOn_append {α : Type} [BEq α] [LawfulBEq α] (a : α) (xs ys : List α) :
    (xs ++ ys).splitOn a = (xs.splitOn a).dropLast ++ ((xs.splitOn a).getLastD [] ++ ys).splitOn a := by
  by_cases h : a ∈ xs
  · -- Cut at the last separator.
    obtain ⟨vs, us, hrev, hvs⟩ := List.eq_append_cons_of_mem (List.mem_reverse.mpr h)
    have hxs : xs = us.reverse ++ a :: vs.reverse := by
      rw [← List.reverse_reverse xs, hrev]
      simp
    have hlast : vs.reverse.splitOn a = [vs.reverse] := List.splitOn_eq_singleton (by simpa using hvs)
    rw [hxs, List.append_assoc, List.cons_append, List.splitOn_append_cons_self, List.splitOn_append_cons_self, hlast]
    simp
  · rw [List.splitOn_eq_singleton h]
    simp

theorem reversedSentences_append (xs ys : ByteString) :
    reversedSentences (xs ++ ys) = reversedSentences xs ++ reversedSentences (unfinished xs ++ ys) := by
  unfold reversedSentences
  rw [splitOn_append, List.dropLast_append_of_ne_nil (List.splitOn_ne_nil _ _), List.flatMap_append]
  rfl

theorem unfinished_append (xs ys : ByteString) : unfinished (xs ++ ys) = unfinished (unfinished xs ++ ys) := by
  unfold unfinished
  rw [splitOn_append, List.getLastD_eq_getLast?, List.getLast?_append_of_ne_nil _ (List.splitOn_ne_nil _ _),
    ← List.getLastD_eq_getLast?]

theorem reversedSentences_of_not_mem {xs : ByteString} (h : dot ∉ xs) : reversedSentences xs = [] := by
  simp [reversedSentences, List.splitOn_eq_singleton h]

theorem unfinished_of_not_mem {xs : ByteString} (h : dot ∉ xs) : unfinished xs = xs := by
  simp [unfinished, List.splitOn_eq_singleton h]

theorem reversedSentences_cons {xs ys : ByteString} (h : dot ∉ xs) : reversedSentences (xs ++ dot :: ys) =
    [bracketOpen] ++ xs.reverse ++ [bracketClose] ++ reversedSentences ys := by
  unfold reversedSentences
  rw [List.splitOn_append_cons_self, List.splitOn_eq_singleton h,
    List.dropLast_append_of_ne_nil (List.splitOn_ne_nil _ _), List.flatMap_append]
  simp

theorem unfinished_cons (xs ys : ByteString) : unfinished (xs ++ dot :: ys) = unfinished ys := by
  unfold unfinished
  rw [List.splitOn_append_cons_self, List.getLastD_eq_getLast?,
    List.getLast?_append_of_ne_nil _ (List.splitOn_ne_nil _ _), ← List.getLastD_eq_getLast?]

theorem dot_notMem_unfinished (stream : ByteString) : dot ∉ unfinished stream := by
  by_cases h : dot ∈ stream
  · obtain ⟨vs, us, hrev, hvs⟩ := List.eq_append_cons_of_mem (List.mem_reverse.mpr h)
    have hstream : stream = us.reverse ++ dot :: vs.reverse := by
      rw [← List.reverse_reverse stream, hrev]
      simp
    have hlast : dot ∉ vs.reverse := by simpa using hvs
    rw [hstream, unfinished_cons, unfinished_of_not_mem hlast]
    exact hlast
  · rwa [unfinished_of_not_mem h]

/-- The loop of `Read` takes all sentences out of `input`. -/
theorem Session.sentenceLoop_eq (input output : ByteString) :
    sentenceLoop input output = (unfinished input, output ++ reversedSentences input) := by
  fun_induction sentenceLoop input output with
  | case1 input output pos hpos tmp ih =>
    obtain ⟨hlt, hdot, hfirst⟩ := List.idxOf?_eq_some_iff.mp hpos
    have hinput : input = tmp ++ dot :: input.drop (pos + 1) := by
      rw [← hdot, ← List.drop_eq_getElem_cons hlt, List.take_append_drop]
    have htmp : dot ∉ tmp := by
      intro hmem
      obtain ⟨i, hi, hget⟩ := List.mem_take_iff_getElem.mp hmem
      exact hfirst i (by omega) hget
    rw [ih]
    conv_rhs => rw [hinput, unfinished_cons, reversedSentences_cons htmp]
    simp only [List.append_assoc]
  | case2 input output hnone =>
    have hnot : dot ∉ input := List.idxOf?_eq_none_iff.mp hnone
    rw [unfinished_of_not_mem hnot, reversedSentences_of_not_mem hnot, List.append_nil]

/-! ### What a session hands out -/

/-- A session has handed out, or is about to, what it owes for what was read, and keeps the rest. -/
structure Session.Faithful (s : Session) : Prop where
  output : s.wire.accepted ++ s.output = reversedSentences s.wire.received
  input : s.input = unfinished s.wire.received

namespace Session
variable {s : Session}

theorem Faithful.afterRead (h : s.Faithful) (text : ByteString) (isEof : Bool) : (s.afterRead text isEof).Faithful where
  output := by
    show s.wire.accepted ++ (sentenceLoop (s.input ++ text) s.output).2 = reversedSentences (s.wire.received ++ text)
    rw [sentenceLoop_eq, reversedSentences_append s.wire.received, ← h.output, h.input, List.append_assoc]
  input := by
    show (sentenceLoop (s.input ++ text) s.output).1 = unfinished (s.wire.received ++ text)
    rw [sentenceLoop_eq, unfinished_append s.wire.received, h.input]

theorem Faithful.afterWrite (h : s.Faithful) (n : Nat) : (s.afterWrite n).Faithful where
  output := by
    show s.wire.accepted ++ s.output.take n ++ s.output.drop n = reversedSentences s.wire.received
    rw [List.append_assoc, List.take_append_drop, h.output]
  input := h.input

end Session

/-- What a session has taken in and given out. -/
def Session.books (s : Session) : ByteString × ByteString × Wire := (s.input, s.output, s.wire)

theorem Session.Faithful.congr {s s' : Session} (h : s.Faithful) (hb : s'.books = s.books) : s'.Faithful := by
  obtain ⟨hin, hrest⟩ := Prod.mk.inj hb
  obtain ⟨hout, hwire⟩ := Prod.mk.inj hrest
  exact ⟨by rw [hout, hwire, h.output], by rw [hin, hwire, h.input]⟩

/-- Where the sessions come from that a call leads to. -/
theorem World.Step.origin {w w' : World} {call : Call} (h : w.Step call w') {s' : Session} (hs' : s' ∈ w'.objects) :
    (∃ s ∈ w.objects, s'.books = s.books) ∨ s'.books = ([], [], {}) ∨
      (∃ id p s calls writeCalls, call = .canRead id calls writeCalls ∧ w.sessions[id]? = some p ∧
        w.objects[p]? = some s ∧ calls.Succeeds ∧
        s' = s.afterRead calls.text (s.connHandler.isEof || calls.stop == .eof)) ∨
      ∃ s ∈ w.objects, ∃ n, s'.books = (s.afterWrite n).books := by
  cases h with
  | accept hfd hid =>
    rcases List.mem_append.mp hs' with hmem | hmem
    · exact .inl ⟨s', hmem, rfl⟩
    · obtain rfl := List.mem_singleton.mp hmem
      exact .inr (.inl rfl)
  | @read id p s calls writeCalls hp hs hstop =>
    rcases mem_put hs' with rfl | hmem
    · exact .inr (.inr (.inl ⟨id, p, s, calls, writeCalls, rfl, hp, hs, hstop, rfl⟩))
    · exact .inl ⟨s', hmem, rfl⟩
  | @write id p s calls hp hs =>
    rcases mem_put hs' with rfl | hmem
    · exact .inr (.inr (.inr ⟨s, List.mem_of_getElem? hs, calls.total, rfl⟩))
    · exact .inl ⟨s', hmem, rfl⟩
  | @writeClose id p s calls hp hs hall =>
    rcases mem_put hs' with rfl | hmem
    · exact .inr (.inr (.inr ⟨s, List.mem_of_getElem? hs, calls.total, rfl⟩))
    · exact .inl ⟨s', hmem, rfl⟩
  | @close call id p s hcall hp hs =>
    rcases mem_put hs' with rfl | hmem
    · exact .inl ⟨s, List.mem_of_getElem? hs, rfl⟩
    · exact .inl ⟨s', hmem, rfl⟩

/-- The tables agree and every session is faithful. -/
structure World.Good (w : World) : Prop extends w.Inv where
  faithful : ∀ s ∈ w.objects, s.Faithful

theorem World.Step.faithful {w w' : World} {call : Call} (h : w.Step call w') (hw : ∀ s ∈ w.objects, s.Faithful) :
    ∀ s ∈ w'.objects, s.Faithful := by
  intro s' hs'
  rcases h.origin hs' with
    ⟨s, hs, hb⟩ | hb | ⟨id, p, s, calls, writeCalls, -, -, hs, -, rfl⟩ | ⟨s, hs, n, hb⟩
  · exact (hw s hs).congr hb
  · obtain ⟨hin, hrest⟩ := Prod.mk.inj hb
    obtain ⟨hout, hwire⟩ := Prod.mk.inj hrest
    exact ⟨by rw [hout, hwire]; rfl, by rw [hin, hwire]; rfl⟩
  · exact (hw s (List.mem_of_getElem? hs)).afterRead _ _
  · exact ((hw s hs).afterWrite n).congr hb

theorem World.Good.step {w w' : World} {call : Call} (h : w.Good) (hstep : w.step call = some w') : w'.Good where
  toInv := h.toInv.step hstep
  faithful := (step_cases h.toInv.tables.toSessions hstep).faithful h.faithful

theorem World.start_good (isOpen : Fd → Bool) : (start isOpen).Good where
  toInv := start_inv isOpen
  faithful s hs := by simp [start] at hs

/-- Whatever calls come in, whatever the reads return and however short the writes are: what the kernel has accepted
    for a session, followed by its `output`, is what the session owes for the bytes read, and `input` is the rest. -/
theorem accepted_append_output_eq (isOpen : Fd → Bool) (calls : List Call) {w : World}
    (h : run World.step (World.start isOpen) calls = some w) {s : Session} (hs : s ∈ w.objects) :
    s.wire.accepted ++ s.output = reversedSentences s.wire.received ∧ s.input = unfinished s.wire.received := by
  have hgood : w.Good := run_inv (fun _ _ _ hw hstep => World.Good.step hw hstep) (World.start_good isOpen) h
  exact ⟨(hgood.faithful s hs).output, (hgood.faithful s hs).input⟩

/-- Two reads that cut a sentence, and a short write. -/
theorem accepted_append_output_eq_cut : ∃ w s,
    run World.step (World.start fun _ => false)
      [.newConnection 5, .canRead 1 ⟨[[97, 98]], .again⟩ ⟨[], .again⟩, .canRead 1 ⟨[[46, 99]], .again⟩ ⟨[], .again⟩,
        .canWrite 1 ⟨[3], .again⟩] = some w ∧ s ∈ w.objects ∧ s.wire = ⟨[97, 98, 46, 99], [91, 98, 97], false⟩ ∧
      s.wire.accepted ++ s.output = reversedSentences s.wire.received ∧ s.input = unfinished s.wire.received := by
  have hrun : (run World.step (World.start fun _ => false)
      [.newConnection 5, .canRead 1 ⟨[[97, 98]], .again⟩ ⟨[], .again⟩, .canRead 1 ⟨[[46, 99]], .again⟩ ⟨[], .again⟩,
        .canWrite 1 ⟨[3], .again⟩]).map (·.objects) =
      some [{ id := 1, input := [99], output := [93], connHandler := { fd := 5 },
              wire := ⟨[97, 98, 46, 99], [91, 98, 97], false⟩ }] := by
    decide +kernel
  obtain ⟨w, hw, hobjects⟩ := Option.map_eq_some_iff.mp hrun
  have hs := hobjects ▸ List.mem_singleton_self _
  exact ⟨w, _, hw, hs, rfl, accepted_append_output_eq _ _ hw hs⟩

/-! ### Output that waits -/

/-- No session has `output` while its connection is known to take more. -/
def World.Settled (w : World) : Prop := ∀ s ∈ w.objects, s.wire.isReady = true → s.output = []

/-- `CanRead` brings the end of a sentence while the connection is known to take more. -/
def Call.IsUntimely (w : World) : Call → Prop
  | .canRead id calls _ => calls.Succeeds ∧ dot ∈ calls.text ∧
      ∃ (p : SessionPtr) (s : Session), w.sessions[id]? = some p ∧ w.objects[p]? = some s ∧ s.wire.isReady = true
  | _ => False

theorem reversedSentences_ne_nil {xs : ByteString} (h : dot ∈ xs) : reversedSentences xs ≠ [] := by
  obtain ⟨us, vs, rfl, hus⟩ := List.eq_append_cons_of_mem h
  rw [reversedSentences_cons hus]
  simp

theorem Session.afterRead_output (s : Session) (text : ByteString) (isEof : Bool) :
    (s.afterRead text isEof).output = s.output ++ reversedSentences (s.input ++ text) := by
  show (sentenceLoop (s.input ++ text) s.output).2 = _
  rw [sentenceLoop_eq]

theorem World.settled_step_iff {w : World} (hw : w.Good) (hset : w.Settled) (call : Call) :
    (∀ w', w.step call = some w' → w'.Settled) ↔ ¬call.IsUntimely w := by
  constructor
  · intro h hcall
    cases call with
    | canRead id calls writeCalls =>
      obtain ⟨hstop, hdot, p, s, hp, hs, hready⟩ := hcall
      obtain ⟨hlt, -⟩ := List.getElem?_eq_some_iff.mp hs
      have hidle := hw.idle s (List.mem_of_getElem? hs)
      have hstep : w.step (.canRead id calls writeCalls) = some _ :=
        step_eq_some.mpr (SessionManager.canRead_ok hp hs hidle.2 hstop)
      have hnil := h _ hstep _ (List.mem_of_getElem? ((objects_put hlt p).trans (if_pos rfl))) hready
      rw [Session.afterRead_output, List.append_eq_nil_iff] at hnil
      exact reversedSentences_ne_nil (List.mem_append_right _ hdot) hnil.2
    | newConnection _ | connectionFails _ | canWrite _ _ | errorOccurred _ | timeToExit _ => exact hcall
  · intro h w' hstep s' hs' hready
    rcases (step_cases hw.toInv.tables.toSessions hstep).origin hs' with
      ⟨s, hs, hb⟩ | hb | ⟨id, p, s, calls, writeCalls, rfl, hp, hs, hstop, rfl⟩ | ⟨s, hs, n, hb⟩
    · obtain ⟨-, hrest⟩ := Prod.mk.inj hb
      obtain ⟨hout, hwire⟩ := Prod.mk.inj hrest
      rw [hout]
      exact hset s hs (hwire ▸ hready)
    · exact (Prod.mk.inj (Prod.mk.inj hb).2).1
    · have hmem := List.mem_of_getElem? hs
      have hdot : dot ∉ calls.text := fun hdot => h ⟨hstop, hdot, p, s, hp, hs, hready⟩
      have hinput : dot ∉ s.input := by
        rw [(hw.faithful s hmem).input]
        exact dot_notMem_unfinished _
      rw [Session.afterRead_output, hset s hmem hready, List.nil_append]
      exact reversedSentences_of_not_mem (by simp [hdot, hinput])
    · obtain ⟨-, hrest⟩ := Prod.mk.inj hb
      obtain ⟨hout, hwire⟩ := Prod.mk.inj hrest
      rw [hwire] at hready
      rw [hout]
      exact List.drop_of_length_le (of_decide_eq_true hready)

/-- Along a sequence of calls no session keeps `output` that its connection would take, if and only if no `CanRead`
    of the sequence brings the end of a sentence while the connection takes more. -/
theorem settled_iff_timely (isOpen : Fd → Bool) (calls : List Call) :
    Each World.step (fun w call => ∀ w', w.step call = some w' → w'.Settled) (World.start isOpen) calls ↔
      Each World.step (fun w call => ¬call.IsUntimely w) (World.start isOpen) calls := by
  refine each_iff_each (I := fun w => w.Good ∧ w.Settled) (A := fun _ _ => True) ?_ ?_ ?_ ?_
  · intro w call w' hw _ hcall hstep
    exact ⟨hw.1.step hstep, (World.settled_step_iff hw.1 hw.2 call).mpr hcall w' hstep⟩
  · intro w call hw _
    exact World.settled_step_iff hw.1 hw.2 call
  · exact ⟨World.start_good isOpen, fun s hs => by simp [World.start] at hs⟩
  · exact fun _ _ _ _ _ _ => trivial

/-- The first `EPOLLOUT` comes when there is nothing to write yet; the sentence that is read next stays. -/
theorem output_waits : ¬Each World.step (fun w call => ∀ w', w.step call = some w' → w'.Settled)
    (World.start fun _ => false)
    [.newConnection 5, .canWrite 1 ⟨[], .again⟩, .canRead 1 ⟨[[97, 46]], .again⟩ ⟨[], .again⟩] := by
  intro h
  have hrun : (run World.step (World.start fun _ => false)
      [.newConnection 5, .canWrite 1 ⟨[], .again⟩, .canRead 1 ⟨[[97, 46]], .again⟩ ⟨[], .again⟩]).map (·.objects) =
      some [{ id := 1, output := [91, 97, 93], connHandler := { fd := 5 }, wire := ⟨[97, 46], [], true⟩ }] := by
    decide +kernel
  obtain ⟨w, hw, hobjects⟩ := Option.map_eq_some_iff.mp hrun
  have hnil := h.last (by simp) hw _ (hobjects ▸ List.mem_singleton_self _) rfl
  cases hnil

end EdgeTriggered
