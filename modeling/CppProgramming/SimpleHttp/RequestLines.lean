import CppProgramming.SimpleHttp.HttpGrammar

/-! # The lines of a stream of chunks

`HttpRequest::Append` throws on a header line without a colon and on a `Content-Length` that `std::stoi` does not
take. Which streams of chunks cause an exception is said by the lines of the stream: the parser takes a stream
exactly when it takes these lines, however they are spread over the chunks. -/

namespace SimpleHttp
namespace HttpRequest

/-- A byte in front of the lines and the rest of a stream. -/
def consByte (b : UInt8) : List ByteString × ByteString → List ByteString × ByteString
  | ([], rest) => ([], b :: rest)
  | (l :: ls, rest) => ((b :: l) :: ls, rest)

/-- The lines of a stream that end with `LINE_END`, and the bytes behind the last one. -/
def splitLines : ByteString → List ByteString × ByteString
  | [] => ([], [])
  | [b] => ([], [b])
  | b :: c :: s =>
    if b = 13 ∧ c = 10 then ([] :: (splitLines s).1, (splitLines s).2) else consByte b (splitLines (c :: s))

/-- The lines that end with each chunk; `rest` is the beginning of the next line. -/
def lineBatches (rest : ByteString) : List ByteString → List (List ByteString)
  | [] => []
  | s :: chunks => (splitLines (rest ++ s)).1 :: lineBatches (splitLines (rest ++ s)).2 chunks

/-- The lines behind the first one. An empty first line is not remembered, so the first line that ends with a later
    chunk is taken for the first line again. -/
def linesAfterFirst (hasFirst : Bool) : List (List ByteString) → List ByteString
  | [] => []
  | [] :: batches => linesAfterFirst hasFirst batches
  | (l :: ls) :: batches =>
    if hasFirst then (l :: ls) ++ linesAfterFirst true batches else ls ++ linesAfterFirst (l ≠ []) batches

/-- The lines that a stream of chunks has behind its first line. -/
def laterLines (chunks : List ByteString) : List ByteString := linesAfterFirst false (lineBatches [] chunks)

/-- The name and the value in a header line. -/
def lineHeader (l : ByteString) : ByteString × ByteString :=
  (l.takeWhile (· ≠ headerSep), (l.dropWhile (· ≠ headerSep)).tail)

/-- The lines in front of the first empty one. -/
def headerBlock (ls : List ByteString) : List ByteString := ls.takeWhile (· ≠ [])

/-- `SetContentLength` takes the headers. -/
def LengthTaken (m : ByteString → Option ByteString) : Prop :=
  ∀ v, m contentLengthHeader = some v → ∃ n, ByteString.stoi v = .ok n

/-- The headers `m` and the lines behind them cause no exception: each header line has a colon, and the length is a
    number if the header block ends. -/
def Taken (m : ByteString → Option ByteString) (ls : List ByteString) : Prop :=
  (∀ l ∈ headerBlock ls, headerSep ∈ l) ∧
    ([] ∈ ls → LengthTaken (addHeaders m ((headerBlock ls).map lineHeader)))

theorem find_lineEnd_start (s : ByteString) : ByteString.find lineEnd (13 :: 10 :: s) = some 0 :=
  ByteString.find_zero_iff.mpr ⟨s, rfl⟩

theorem lineEnd_not_start {b c : UInt8} {s : ByteString} (h : ¬(b = 13 ∧ c = 10)) : ¬lineEnd <+: b :: c :: s := by
  simp only [lineEnd, List.cons_prefix_cons, List.nil_prefix, and_true]
  exact fun heq => h ⟨heq.1.symm, heq.2.symm⟩

theorem splitLines_of_find_none {s : ByteString} (h : ByteString.find lineEnd s = none) : splitLines s = ([], s) := by
  fun_induction splitLines s with
  | case1 => rfl
  | case2 b => rfl
  | case3 b c s heq ih =>
    obtain ⟨rfl, rfl⟩ := heq
    rw [find_lineEnd_start] at h
    cases h
  | case4 b c s hne ih =>
    rw [ByteString.find_cons_of_not_start (lineEnd_not_start hne), Option.map_eq_none_iff] at h
    rw [ih h]
    rfl

theorem splitLines_of_find_some {s : ByteString} {n : Nat} (h : ByteString.find lineEnd s = some n) :
    splitLines s = (s.take n :: (splitLines (s.drop (n + 2))).1, (splitLines (s.drop (n + 2))).2) := by
  fun_induction splitLines s generalizing n with
  | case1 => cases h
  | case2 b =>
    have := ByteString.find_add_length_le h
    simp at this
  | case3 b c s heq ih =>
    obtain ⟨rfl, rfl⟩ := heq
    rw [find_lineEnd_start] at h
    cases h
    rfl
  | case4 b c s hne ih =>
    rw [ByteString.find_cons_of_not_start (lineEnd_not_start hne)] at h
    obtain ⟨m, hm, rfl⟩ := Option.map_eq_some_iff.mp h
    rw [ih hm]
    rfl

/-! ### Header lines -/

section Taken
variable {m : ByteString → Option ByteString} {l : ByteString} {ls ls' : List ByteString}

theorem taken_nil : Taken m [] := ⟨by simp [headerBlock], by simp⟩

theorem taken_blank : Taken m ([] :: ls) ↔ LengthTaken m := by
  simp [Taken, headerBlock, addHeaders]

theorem taken_cons (hl : l ≠ []) :
    Taken m (l :: ls) ↔ headerSep ∈ l ∧ Taken (addHeaders m [lineHeader l]) ls := by
  simp [Taken, headerBlock, hl, addHeaders, and_assoc]

/-- Lines behind an empty one do not matter, and lines behind others go on with their headers. -/
theorem taken_append : Taken m (ls ++ ls') ↔
    Taken m ls ∧ ([] ∉ ls → Taken (addHeaders m (ls.map lineHeader)) ls') := by
  induction ls generalizing m with
  | nil => simp [taken_nil, addHeaders]
  | cons l ls ih =>
    by_cases hl : l = []
    · subst hl
      rw [List.cons_append, taken_blank, taken_blank]
      simp
    · rw [List.cons_append, taken_cons hl, taken_cons hl, ih, and_assoc]
      simp [Ne.symm hl, addHeaders]

/-- A line with a colon is a name without one, a colon and a value. -/
theorem lineHeader_eq (hl : headerSep ∈ l) : (lineHeader l).1 ++ headerSep :: (lineHeader l).2 = l ∧
    headerSep ∉ (lineHeader l).1 := by
  have hne : l.dropWhile (· ≠ headerSep) ≠ [] := by
    intro hnil
    have := List.dropWhile_eq_nil_iff.mp hnil headerSep hl
    simp at this
  obtain ⟨b, rest, hb⟩ := List.exists_cons_of_ne_nil hne
  have hhead : b = headerSep := by
    have := List.head_dropWhile_not (fun b : UInt8 => decide (b ≠ headerSep)) hne
    simp only [hb, List.head_cons] at this
    simpa using this
  constructor
  · calc (lineHeader l).1 ++ headerSep :: (lineHeader l).2
      _ = l.takeWhile (· ≠ headerSep) ++ l.dropWhile (· ≠ headerSep) := by
        show l.takeWhile (· ≠ headerSep) ++ headerSep :: (l.dropWhile (· ≠ headerSep)).tail = _
        rw [hb, hhead, List.tail_cons]
      _ = l := List.takeWhile_append_dropWhile
  · intro hmem
    have := List.mem_takeWhile_imp hmem
    simp at this

theorem addHeader_of_colon (q : HttpRequest) (hl : headerSep ∈ l) :
    addHeader q l = .ok { q with headers := addHeaders q.headers [lineHeader l] } := by
  obtain ⟨heq, hname⟩ := lineHeader_eq hl
  rw [← heq, addHeader_line hname, heq]
  rfl

theorem addHeader_of_no_colon (q : HttpRequest) (hl : headerSep ∉ l) : addHeader q l = .error (.runtimeError, q) := by
  have hnone : ByteString.find [headerSep] l = none := by
    rw [ByteString.find_eq_none_iff, List.singleton_infix_iff]
    exact hl
  rw [addHeader, hnone]

theorem setContentLength_iff (q : HttpRequest) : (∃ q', setContentLength q = .ok q') ↔ LengthTaken q.headers := by
  unfold setContentLength LengthTaken
  cases q.headers contentLengthHeader with
  | none => simp
  | some v => cases hv : ByteString.stoi v <;> simp [hv]

end Taken

/-- What `SetHeaders` makes of the lines in the buffer. -/
theorem setHeaders_lines {q : HttpRequest} {ls : List ByteString} {rest : ByteString}
    (hq : q.headersParseComplete = false) (hls : splitLines q.buf = (ls, rest)) :
    (Taken q.headers ls → [] ∈ ls → ∃ q', setHeaders q = .ok q' ∧ q'.headersParseComplete = true) ∧
    (Taken q.headers ls → [] ∉ ls →
      setHeaders q = .ok { q with headers := addHeaders q.headers (ls.map lineHeader), buf := rest }) ∧
    (¬Taken q.headers ls → ∃ e, setHeaders q = .error e) := by
  induction ls generalizing q with
  | nil =>
    cases hf : ByteString.find lineEnd q.buf with
    | some n =>
      rw [splitLines_of_find_some hf] at hls
      cases hls
    | none =>
      rw [splitLines_of_find_none hf] at hls
      cases hls
      rw [setHeaders_of_find_none hf]
      exact ⟨by simp, fun _ _ => rfl, fun hno => absurd taken_nil hno⟩
  | cons l ls ih =>
    cases hf : ByteString.find lineEnd q.buf with
    | none =>
      rw [splitLines_of_find_none hf] at hls
      cases hls
    | some n =>
      rw [splitLines_of_find_some hf] at hls
      simp only [Prod.mk.injEq, List.cons.injEq] at hls
      obtain ⟨⟨hl, hls⟩, hrest⟩ := hls
      have hlen := ByteString.find_add_length_le hf
      rw [length_lineEnd] at hlen
      by_cases hn : n = 0
      · subst hn
        have hnil : l = [] := by simpa using hl.symm
        subst hnil
        have hset := setContentLength_iff { q with buf := q.buf.drop 2, headersParseComplete := true }
        rw [setHeaders_of_find_zero hf, taken_blank]
        refine ⟨fun ht _ => ?_, fun _ hno => absurd (List.mem_cons_self ..) hno, fun hno => ?_⟩
        · obtain ⟨q', hq'⟩ := hset.mpr ht
          exact ⟨q', hq', by rw [setContentLength_complete hq']⟩
        · cases hc : setContentLength { q with buf := q.buf.drop 2, headersParseComplete := true } with
          | error e => exact ⟨e, rfl⟩
          | ok q' => exact absurd (hset.mp ⟨q', hc⟩) hno
      · have hne : l ≠ [] := by
          rw [← hl]
          intro hnil
          have := congrArg List.length hnil
          rw [List.length_take, List.length_nil] at this
          omega
        rw [setHeaders_of_find_pos hf hn, hl, taken_cons hne]
        by_cases hcolon : headerSep ∈ l
        · have hsplit : splitLines (q.buf.drop (n + 2)) = (ls, rest) := Prod.ext hls hrest
          have hih := ih (q := { q with
            headers := addHeaders q.headers [lineHeader l]
            buf := q.buf.drop (n + 2) }) hq hsplit
          rw [addHeader_of_colon q hcolon]
          simp only [hcolon, true_and, List.mem_cons, Ne.symm hne, false_or, List.map_cons]
          exact hih
        · rw [addHeader_of_no_colon q hcolon]
          exact ⟨fun ht => absurd ht.1 hcolon, fun ht => absurd ht.1 hcolon, fun _ => ⟨_, rfl⟩⟩

/-! ### Chunks -/

theorem append_body {q : HttpRequest} (hq : q.headersParseComplete = true) (s : ByteString) :
    ∃ q', append q s = .ok q' ∧ q'.headersParseComplete = true := by
  cases hc : q.totalParseComplete with
  | true => exact ⟨q, by rw [append, if_pos hc], hq⟩
  | false => exact ⟨_, append_of_body hc hq, by simp [parseMessageBody, addBuf, hq, hc]⟩

/-- Behind the header block nothing throws. -/
theorem foldlM_body {q : HttpRequest} (hq : q.headersParseComplete = true) (chunks : List ByteString) :
    ∃ q', chunks.foldlM append q = .ok q' := by
  induction chunks generalizing q with
  | nil => exact ⟨q, rfl⟩
  | cons s chunks ih =>
    obtain ⟨q', hs, hq'⟩ := append_body hq s
    rw [List.foldlM_cons, hs]
    exact ih hq'

/-- `SetFirstLine` takes the first of the complete lines, if there is no first line yet. -/
theorem setFirstLine_lines (q : HttpRequest) : ∃ ls,
    splitLines (setFirstLine q).buf = (ls, (splitLines q.buf).2) ∧
    (∀ batches, linesAfterFirst (q.firstLine ≠ []) ((splitLines q.buf).1 :: batches) =
      ls ++ linesAfterFirst ((setFirstLine q).firstLine ≠ []) batches) ∧
    (setFirstLine q).headers = q.headers ∧ (setFirstLine q).headersParseComplete = q.headersParseComplete ∧
    (setFirstLine q).totalParseComplete = q.totalParseComplete := by
  cases hf : ByteString.find lineEnd q.buf with
  | none =>
    rw [setFirstLine_of_find_none hf, splitLines_of_find_none hf]
    exact ⟨[], rfl, fun _ => by simp [linesAfterFirst], rfl, rfl, rfl⟩
  | some n =>
    by_cases hnil : q.firstLine = []
    · rw [setFirstLine_of_find_some hnil hf, splitLines_of_find_some hf]
      exact ⟨_, rfl, fun _ => by simp [linesAfterFirst, hnil], rfl, rfl, rfl⟩
    · rw [setFirstLine_of_ne_nil hnil, splitLines_of_find_some hf]
      exact ⟨_, rfl, fun _ => by simp [linesAfterFirst, hnil], rfl, rfl, rfl⟩

theorem parseMessageBody_of_head {q : HttpRequest} (hq : q.headersParseComplete = false) : parseMessageBody q = q := by
  rw [parseMessageBody, if_pos (by simp [hq])]

/-- The parser takes the chunks exactly when it takes the lines of the stream behind the first one. -/
theorem foldlM_append_iff (chunks : List ByteString) {q : HttpRequest} (hq : q.headersParseComplete = false)
    (ho : q.totalParseComplete = false) : (∃ q', chunks.foldlM append q = .ok q') ↔
      Taken q.headers (linesAfterFirst (q.firstLine ≠ []) (lineBatches q.buf chunks)) := by
  induction chunks generalizing q with
  | nil => exact ⟨fun _ => taken_nil, fun _ => ⟨q, rfl⟩⟩
  | cons s chunks ih =>
    obtain ⟨ls, hls, hafter, hheaders, hhead, htotal⟩ := setFirstLine_lines (q.addBuf s)
    have hq₁ : (setFirstLine (q.addBuf s)).headersParseComplete = false := hhead.trans hq
    have hbatch := hafter (lineBatches (splitLines (q.buf ++ s)).2 chunks)
    obtain ⟨hblank, hopen, herror⟩ := setHeaders_lines hq₁ hls
    rw [hheaders] at hblank hopen herror
    rw [List.foldlM_cons, append_of_head ho hq, parseHead]
    show _ ↔ Taken q.headers (linesAfterFirst ((q.addBuf s).firstLine ≠ []) ((splitLines (q.addBuf s).buf).1 :: _))
    rw [show (q.addBuf s).buf = q.buf ++ s from rfl] at hbatch ⊢
    rw [hbatch, taken_append]
    by_cases ht : Taken q.headers ls
    · by_cases hmem : [] ∈ ls
      · -- the header block ends with this chunk
        obtain ⟨q₂, hset, hhead₂⟩ := hblank ht hmem
        rw [hset]
        have hbody : (parseMessageBody q₂).headersParseComplete = true := by
          unfold parseMessageBody
          split <;> first | exact hhead₂ | (split <;> exact hhead₂)
        exact ⟨fun _ => ⟨ht, fun hno => absurd hmem hno⟩, fun _ => foldlM_body hbody chunks⟩
      · obtain ⟨q₂, hset, hhead₂, ho₂, hfirst₂, hheaders₂, hbuf₂⟩ : ∃ q₂, setHeaders (setFirstLine (q.addBuf s)) = .ok q₂ ∧
            q₂.headersParseComplete = false ∧ q₂.totalParseComplete = false ∧
            q₂.firstLine = (setFirstLine (q.addBuf s)).firstLine ∧
            q₂.headers = addHeaders q.headers (ls.map lineHeader) ∧ q₂.buf = (splitLines (q.buf ++ s)).2 :=
          ⟨_, hopen ht hmem, hq₁, htotal.trans ho, rfl, rfl, rfl⟩
        have hih := ih hhead₂ ho₂
        rw [hfirst₂, hheaders₂, hbuf₂] at hih
        rw [hset]
        show (∃ q', chunks.foldlM append (parseMessageBody q₂) = .ok q') ↔ _
        rw [parseMessageBody_of_head hhead₂, hih]
        exact ⟨fun h => ⟨ht, fun _ => h⟩, fun h => h.2 hmem⟩
    · obtain ⟨e, he⟩ := herror ht
      rw [he]
      refine ⟨?_, fun h => absurd h.1 ht⟩
      rintro ⟨q', hq'⟩
      cases hq'

/-- A stream of chunks has lines that cause no exception: each header line has a colon, and the last
    `Content-Length` of a header block that ends is a number that `std::stoi` takes. -/
def TakesLines (chunks : List ByteString) : Prop :=
  (∀ l ∈ headerBlock (laterLines chunks), headerSep ∈ l) ∧
    ([] ∈ laterLines chunks → ∀ v,
      lastValue ((headerBlock (laterLines chunks)).map lineHeader) contentLengthHeader = some v →
      ∃ n, ByteString.stoi v = .ok n)

theorem takesLines_iff (chunks : List ByteString) :
    TakesLines chunks ↔ ∃ q, chunks.foldlM append {} = .ok q := by
  rw [foldlM_append_iff chunks rfl rfl]
  show _ ↔ Taken (fun _ => none) (laterLines chunks)
  rw [Taken, LengthTaken, addHeaders_eq_lastValue, TakesLines]

end HttpRequest
end SimpleHttp
