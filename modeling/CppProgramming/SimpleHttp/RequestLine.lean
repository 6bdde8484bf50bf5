import CppProgramming.SimpleHttp.RequestBody

/-! # The request line

Whether the request line has been taken is told from `firstLine`. An empty request line leaves it empty, so the next
line is taken for the request line again, unless the same call of `Append` has handed it to `SetHeaders`. -/

namespace SimpleHttp
namespace HttpRequest

/-- The line that `SetFirstLine` takes out of the buffer. -/
def requestLine (q : HttpRequest) : Option ByteString :=
  if q.firstLine ≠ [] then none else (ByteString.find lineEnd q.buf).map fun pos => q.buf.take pos

/-- The line that `SetFirstLine` takes in a call of `Append`. -/
def requestLineOf (q : HttpRequest) (s : ByteString) : Option ByteString :=
  if q.totalParseComplete || q.headersParseComplete then none else requestLine { q with buf := q.buf ++ s }

/-- The lines that `SetFirstLine` takes in calls of `Append`, until one of them throws. -/
def requestLinesFrom (q : HttpRequest) : List ByteString → List ByteString
  | [] => []
  | s :: chunks =>
    (requestLineOf q s).toList ++
      match append q s with
      | .ok q' => requestLinesFrom q' chunks
      | .error _ => []

/-- The lines of a stream that have been taken for its request line. -/
def requestLines (chunks : List ByteString) : List ByteString := requestLinesFrom {} chunks

/-- The stream so far is an empty line with header lines, and the next chunk ends a further line. -/
def RetakenBy (w s : ByteString) : Prop :=
  ∃ ls, (splitLines w).1 = [] :: ls ∧ [] ∉ ls ∧ (splitLines w).1.length < (splitLines (w ++ s)).1.length

/-- There is a chunk with which a line behind an empty request line is taken for the request line. -/
def Retakes (chunks : List ByteString) : Prop :=
  ∃ (before : List ByteString) (s : ByteString), before ++ [s] <+: chunks ∧ RetakenBy before.flatten s

/-- What the parser has taken for the request line and for header lines, if the stream has a line. -/
def TakesOneLine (chunks : List ByteString) (q : HttpRequest) : Prop :=
  ∀ l ls, (splitLines chunks.flatten).1 = l :: ls →
    q.firstLine = l ∧ requestLines chunks = [l] ∧
    q.headers = addHeaders (fun _ => none) ((headerBlock ls).map lineHeader) ∧
    (q.headersParseComplete = true ↔ [] ∈ ls)

variable {q q' : HttpRequest} {w s l : ByteString} {ls : List ByteString} {chunks : List ByteString}

/-! ### The lines that are taken -/

theorem setFirstLine_requestLine (q : HttpRequest) :
    setFirstLine q = (requestLine q).elim q fun l => { q with firstLine := l, buf := q.buf.drop (l.length + 2) } := by
  unfold requestLine
  by_cases hne : q.firstLine ≠ []
  · rw [if_pos hne, setFirstLine_of_ne_nil hne]
    rfl
  · rw [if_neg hne]
    cases hfind : ByteString.find lineEnd q.buf with
    | none => exact setFirstLine_of_find_none hfind
    | some pos =>
      have hlen := ByteString.find_add_length_le hfind
      rw [length_lineEnd] at hlen
      rw [setFirstLine_of_find_some (not_not.mp hne) hfind, Option.map_some, Option.elim_some, List.length_take,
        Nat.min_eq_left (by omega)]

theorem requestLine_eq (q : HttpRequest) :
    requestLine q = (requestPart q.firstLine (splitLines q.buf).1).head? := by
  unfold requestLine requestPart
  by_cases hne : q.firstLine = []
  · rw [if_neg (not_not.mpr hne), if_pos hne]
    cases hfind : ByteString.find lineEnd q.buf with
    | none =>
      rw [splitLines_of_find_none hfind]
      rfl
    | some pos =>
      rw [splitLines_of_find_some hfind]
      rfl
  · rw [if_pos hne, if_neg hne]
    rfl

theorem requestLinesFrom_concat (h : chunks.foldlM append q = .ok q') (s : ByteString) :
    requestLinesFrom q (chunks ++ [s]) = requestLinesFrom q chunks ++ (requestLineOf q' s).toList := by
  induction chunks generalizing q with
  | nil =>
    cases h
    rw [List.nil_append, requestLinesFrom, requestLinesFrom, List.nil_append]
    cases append q' s <;> exact List.append_nil _
  | cons t chunks ih =>
    rw [List.foldlM_cons] at h
    cases ht : append q t with
    | error e =>
      rw [ht] at h
      cases h
    | ok q₁ =>
      rw [ht] at h
      rw [List.cons_append, requestLinesFrom, requestLinesFrom, ht]
      dsimp only
      rw [ih h, List.append_assoc]

theorem requestLines_concat (h : feed chunks = .ok q) (s : ByteString) :
    requestLines (chunks ++ [s]) = requestLines chunks ++ (requestLineOf q s).toList := requestLinesFrom_concat h s

/-! ### The head of a stream -/

theorem headOf_of_nil {rest : ByteString} (hw : splitLines w = ([], rest)) : headOf [w] = { rest } := by
  show ({} : Head).addLines (splitLines w).1 (splitLines w).2 = _
  rw [hw]
  rfl

/-- The head of a stream that comes in one chunk: its first line is the request line. -/
theorem headOf_of_cons {rest : ByteString} (hw : splitLines w = (l :: ls, rest)) :
    ([] ∈ ls → headOf [w] =
      { rest := [], firstLine := l, lines := headerBlock ls, length := l.length + 2 + blockLength ls, complete := true }) ∧
    ([] ∉ ls → headOf [w] =
      { rest, firstLine := l, lines := ls, length := linesLength (l :: ls), complete := false }) := by
  have hhead : headOf [w] = ({} : Head).addLines (l :: ls) rest := by
    show ({} : Head).addLines (splitLines w).1 (splitLines w).2 = _
    rw [hw]
  rw [hhead]
  constructor
  · intro hmem
    refine (if_pos hmem).trans ?_
    simp [headerPart, requestPart]
  · intro hmem
    refine (if_neg hmem).trans ?_
    simp [headerPart, requestPart]

/-- While the head is incomplete, the bytes that are left over are those behind the last line of the stream. -/
theorem headOf_rest_eq (hc : (headOf chunks).complete = false) :
    (headOf chunks).rest = (splitLines chunks.flatten).2 := by
  induction chunks using List.reverseRecOn with
  | nil => rfl
  | append_singleton chunks s ih =>
    rw [headOf_concat] at hc ⊢
    cases hc' : (headOf chunks).complete with
    | true =>
      rw [Head.read_of_complete hc', hc'] at hc
      cases hc
    | false =>
      have hmem : [] ∉ (headOf chunks).headerLines s := by
        intro hmem
        rw [(Head.complete_read hc').mpr hmem] at hc
        cases hc
      rw [Head.read_of_not_mem hc' hmem, List.flatten_append, List.flatten_singleton, splitLines_append chunks.flatten,
        ih hc']

/-- A chunk with which nothing is taken again ends no line behind an empty request line. -/
theorem not_ends_line {rest rest' : ByteString} {ms : List ByteString} (hno : ¬RetakenBy w s)
    (hw : splitLines w = (l :: ls, rest)) (hs : splitLines (rest ++ s) = (ms, rest')) (hl : l = []) (hmem : [] ∉ ls) :
    ms = [] := by
  by_contra hne
  have hlength := List.length_pos_of_ne_nil hne
  refine hno ⟨ls, by rw [hw, hl], hmem, ?_⟩
  rw [splitLines_append, hw]
  show (l :: ls).length < (l :: ls ++ (splitLines (rest ++ s)).1).length
  rw [hs, List.length_append]
  exact Nat.lt_add_of_pos_right hlength

/-- One chunk more is the same as a longer first one, unless a line is taken again. -/
theorem headOf_singleton_read (hno : ¬RetakenBy w s) : (headOf [w]).read s = headOf [w ++ s] := by
  obtain ⟨ls, rest, hw⟩ : ∃ ls rest, splitLines w = (ls, rest) := ⟨_, _, rfl⟩
  obtain ⟨ms, rest', hs⟩ : ∃ ms rest', splitLines (rest ++ s) = (ms, rest') := ⟨_, _, rfl⟩
  have hsplit : splitLines (w ++ s) = (ls ++ ms, rest') := by rw [splitLines_append, hw, hs]
  rcases ls with - | ⟨l, ls⟩
  · rw [headOf_of_nil hw]
    show ({ rest } : Head).addLines (splitLines (rest ++ s)).1 (splitLines (rest ++ s)).2 =
      ({} : Head).addLines (splitLines (w ++ s)).1 (splitLines (w ++ s)).2
    rw [hs, hsplit]
    rfl
  · have hcons : splitLines (w ++ s) = (l :: (ls ++ ms), rest') := hsplit
    obtain ⟨hblank, hopen⟩ := headOf_of_cons hw
    obtain ⟨hblank', hopen'⟩ := headOf_of_cons hcons
    by_cases hmem : [] ∈ ls
    · rw [hblank hmem, hblank' (List.mem_append_left _ hmem), headerBlock_append_of_mem hmem, blockLength, blockLength,
        headerBlock_append_of_mem hmem]
      rfl
    · have hread : (headOf [w]).read s = (headOf [w]).addLines ms rest' := by
        rw [hopen hmem]
        show Head.addLines _ (splitLines (rest ++ s)).1 (splitLines (rest ++ s)).2 = _
        rw [hs]
      rw [hread, hopen hmem]
      by_cases hl : l = []
      · -- An empty request line: the chunk ends no line, or it would be taken again.
        have hms : ms = [] := not_ends_line hno hw hs hl hmem
        subst hms
        rw [List.append_nil] at hopen'
        rw [hopen' hmem, hl, Head.addLines]
        simp [headerPart, requestPart]
      · have hparts : requestPart l ms = [] ∧ headerPart l ms = ms := ⟨if_neg hl, if_neg hl⟩
        by_cases hmem' : [] ∈ ms
        · rw [hblank' (List.mem_append_right _ hmem'), Head.addLines]
          simp only [hparts, hmem', if_true, headerBlock_append_of_not_mem hmem, blockLength, linesLength_append,
            linesLength_cons, linesLength_nil, List.headD_nil, Nat.add_zero, Nat.add_assoc]
        · have hboth : [] ∉ ls ++ ms := by
            rw [List.mem_append]
            exact not_or.mpr ⟨hmem, hmem'⟩
          rw [hopen' hboth, Head.addLines]
          simp only [hparts, hmem', if_false, linesLength_append, linesLength_cons, List.headD_nil, Nat.add_assoc]

/-- The head of a stream is the one that it has in one chunk, unless a line is taken again. -/
theorem headOf_eq (hno : ¬Retakes chunks) : headOf chunks = headOf [chunks.flatten] := by
  induction chunks using List.reverseRecOn with
  | nil => rfl
  | append_singleton chunks s ih =>
    have hbefore : ¬Retakes chunks := by
      rintro ⟨before, t, hbefore, hretaken⟩
      exact hno ⟨before, t, hbefore.trans (List.prefix_append ..), hretaken⟩
    have hlast : ¬RetakenBy chunks.flatten s := fun hretaken => hno ⟨chunks, s, List.prefix_rfl, hretaken⟩
    rw [headOf_concat, ih hbefore, headOf_singleton_read hlast, List.flatten_append, List.flatten_singleton]

/-- A request line with something in it is not taken again. -/
theorem not_retakes (hstart : ¬lineEnd <+: chunks.flatten) : ¬Retakes chunks := by
  rintro ⟨before, s, ⟨rest, rfl⟩, ls, hls, -, -⟩
  refine hstart ?_
  rw [List.append_assoc, List.flatten_append]
  refine List.IsPrefix.trans ?_ (List.prefix_append ..)
  rw [← ByteString.find_zero_iff]
  cases hfind : ByteString.find lineEnd before.flatten with
  | none =>
    rw [splitLines_of_find_none hfind] at hls
    cases hls
  | some pos =>
    have hlen := ByteString.find_add_length_le hfind
    rw [length_lineEnd] at hlen
    rw [splitLines_of_find_some hfind] at hls
    have hnil := congrArg List.length (List.cons.inj hls).1
    rw [List.length_take, List.length_nil] at hnil
    congr 1
    omega

/-! ### Runs -/

theorem feed_begin {before : List ByteString} (hbefore : before <+: chunks) (h : feed chunks = .ok q) :
    ∃ q', feed before = .ok q' := by
  obtain ⟨rest, rfl⟩ := hbefore
  rw [feed, List.foldlM_append] at h
  cases hq : before.foldlM append ({} : HttpRequest) with
  | error e =>
    rw [hq] at h
    cases h
  | ok q' => exact ⟨q', hq⟩

/-- The line that `SetFirstLine` takes while the head is incomplete. -/
theorem requestLineOf_request (h : Head) (s : ByteString) :
    requestLineOf h.request s = (requestPart h.firstLine (splitLines (h.rest ++ s)).1).head? := requestLine_eq _

theorem requestLineOf_complete (h : q.headersParseComplete = true) (s : ByteString) : requestLineOf q s = none := by
  rw [requestLineOf, h, Bool.or_true, if_pos rfl]

/-- Unless a line is taken again, the request line is the first line of the stream. -/
theorem requestLines_eq (hno : ¬Retakes chunks) (h : feed chunks = .ok q) :
    requestLines chunks = (splitLines chunks.flatten).1.take 1 := by
  induction chunks using List.reverseRecOn generalizing q with
  | nil => rfl
  | append_singleton chunks s ih =>
    have hbefore : ¬Retakes chunks := by
      rintro ⟨before, t, hbefore, hretaken⟩
      exact hno ⟨before, t, hbefore.trans (List.prefix_append ..), hretaken⟩
    have hlast : ¬RetakenBy chunks.flatten s := fun hretaken => hno ⟨chunks, s, List.prefix_rfl, hretaken⟩
    obtain ⟨q₀, hq₀⟩ := feed_begin (List.prefix_append chunks [s]) h
    have hhead := headOf_eq hbefore
    obtain ⟨ls, rest, hw⟩ : ∃ ls rest, splitLines chunks.flatten = (ls, rest) := ⟨_, _, rfl⟩
    rw [requestLines_concat hq₀, ih hbefore hq₀, List.flatten_append, List.flatten_singleton, splitLines_append, hw]
    obtain ⟨ms, rest', hs⟩ : ∃ ms rest', splitLines (rest ++ s) = (ms, rest') := ⟨_, _, rfl⟩
    dsimp only
    rw [hs]
    have houtcome := feed_outcome chunks
    rw [hq₀] at houtcome
    cases houtcome with
    | head hc hcolons =>
      rw [requestLineOf_request, headOf_rest_eq hc, hw, hs, hhead]
      rcases ls with - | ⟨l, ls⟩
      · rw [headOf_of_nil hw]
        cases ms <;> rfl
      · rw [hhead] at hc
        obtain ⟨hblank, hopen⟩ := headOf_of_cons hw
        have hmem : [] ∉ ls := by
          intro hmem
          rw [hblank hmem] at hc
          cases hc
        rw [hopen hmem]
        by_cases hl : l = []
        · have hms : ms = [] := not_ends_line hlast hw hs hl hmem
          rw [hms, hl]
          rfl
        · rw [requestPart, if_neg hl]
          rfl
    | body hc hcolons hdeclared hholds =>
      rw [requestLineOf_complete hholds.head]
      rcases ls with - | ⟨l, ls⟩
      · rw [hhead, headOf_of_nil hw] at hc
        cases hc
      · rfl

theorem takesOneLine_of_not_retakes (hno : ¬Retakes chunks) (h : feed chunks = .ok q) : TakesOneLine chunks q := by
  intro l ls hls
  have hw : splitLines chunks.flatten = (l :: ls, (splitLines chunks.flatten).2) := Prod.ext hls rfl
  obtain ⟨hblank, hopen⟩ := headOf_of_cons hw
  have hlines : requestLines chunks = [l] := by rw [requestLines_eq hno h, hls]; rfl
  have hhead := headOf_eq hno
  have houtcome := feed_outcome chunks
  rw [h] at houtcome
  cases houtcome with
  | head hc hcolons =>
    rw [hhead] at hc ⊢
    have hmem : [] ∉ ls := by
      intro hmem
      rw [hblank hmem] at hc
      cases hc
    rw [hopen hmem, headerBlock_of_not_mem hmem]
    exact ⟨rfl, hlines, rfl, iff_of_false Bool.false_ne_true hmem⟩
  | body hc hcolons hdeclared hholds =>
    rw [hhead] at hc
    have hmem : [] ∈ ls := by
      by_contra hmem
      rw [hopen hmem] at hc
      cases hc
    rw [hholds.firstLine, hholds.headers, hholds.head, hhead, hblank hmem]
    exact ⟨rfl, hlines, rfl, iff_of_true rfl hmem⟩

/-- A line that is taken again is a second request line. -/
theorem not_takesOneLine_of_retakenBy {before : List ByteString} (hretaken : RetakenBy before.flatten s)
    (hq : feed before = .ok q) (h : TakesOneLine before q) : ¬TakesOneLine (before ++ [s]) q' := by
  obtain ⟨ls, hls, hmem, hlonger⟩ := hretaken
  obtain ⟨hfirst, hlines, -, hhead⟩ := h [] ls hls
  obtain ⟨ms, rest', hs⟩ : ∃ ms rest', splitLines ((splitLines before.flatten).2 ++ s) = (ms, rest') := ⟨_, _, rfl⟩
  rw [splitLines_append, hs, List.length_append] at hlonger
  obtain ⟨l, ms, rfl⟩ := List.exists_cons_of_length_pos (Nat.pos_of_lt_add_right hlonger)
  have houtcome := feed_outcome before
  rw [hq] at houtcome
  have hsecond : requestLineOf q s = some l := by
    cases houtcome with
    | head hc hcolons =>
      have hempty : (headOf before).firstLine = [] := hfirst
      rw [requestLineOf_request, headOf_rest_eq hc, hs, requestPart, if_pos hempty]
      rfl
    | body hc hcolons hdeclared hholds => exact absurd (hhead.mp hholds.head) hmem
  intro h'
  have hsplit : (splitLines (before ++ [s]).flatten).1 = [] :: (ls ++ l :: ms) := by
    rw [List.flatten_append, List.flatten_singleton, splitLines_append, hs, hls]
    rfl
  obtain ⟨-, hlines', -, -⟩ := h' [] _ hsplit
  rw [requestLines_concat hq, hlines, hsecond] at hlines'
  cases hlines'

/-- In every state that a stream of chunks reaches, the first line is the request line and the other lines up to the
    blank one are header lines, if and only if no line behind an empty request line is taken again. -/
theorem takes_one_line_iff (chunks : List ByteString) (q : HttpRequest) (h : feed chunks = .ok q) :
    (∀ before q', before <+: chunks → feed before = .ok q' → TakesOneLine before q') ↔ ¬Retakes chunks := by
  constructor
  · rintro hall ⟨before, s, hbefore, hretaken⟩
    have hless : before <+: chunks := (List.prefix_append before [s]).trans hbefore
    obtain ⟨q₁, hq₁⟩ := feed_begin hless h
    obtain ⟨q₂, hq₂⟩ := feed_begin hbefore h
    exact not_takesOneLine_of_retakenBy hretaken hq₁ (hall before q₁ hless hq₁) (hall _ q₂ hbefore hq₂)
  · intro hno before q' hbefore hq'
    refine takesOneLine_of_not_retakes ?_ hq'
    rintro ⟨upto, s, hupto, hretaken⟩
    exact hno ⟨upto, s, hupto.trans hbefore, hretaken⟩

/-- `"GET\r\n"` and `"A:1\r\n\r\n"`. -/
theorem takes_one_line_iff_get : ∃ q, feed [[71, 69, 84, 13, 10], [65, 58, 49, 13, 10, 13, 10]] = .ok q ∧
    ∀ before q', before <+: [[71, 69, 84, 13, 10], [65, 58, 49, 13, 10, 13, 10]] → feed before = .ok q' →
      TakesOneLine before q' :=
  ⟨_, rfl, (takes_one_line_iff _ _ rfl).mpr (not_retakes (by decide))⟩

/-- `"\r\n"` and `"A:1\r\n\r\n"`: the header is taken for the request line, and in one chunk it is not. -/
theorem empty_line_taken_again :
    (∃ q, feed [[13, 10], [65, 58, 49, 13, 10, 13, 10]] = .ok q ∧ q.firstLine = [65, 58, 49] ∧ q.headers [65] = none) ∧
    ∃ q, feed [[13, 10, 65, 58, 49, 13, 10, 13, 10]] = .ok q ∧ q.firstLine = [] ∧ q.headers [65] = some [49] :=
  ⟨⟨_, rfl, by decide, by decide⟩, ⟨_, rfl, by decide, by decide⟩⟩

end HttpRequest
end SimpleHttp
