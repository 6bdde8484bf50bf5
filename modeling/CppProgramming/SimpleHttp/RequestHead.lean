import CppProgramming.SimpleHttp.ReadCall

/-! # The head of a request, line by line

Up to the blank line, what `HttpRequest` has in its fields follows from the lines that have ended with each chunk
(`Head.read`). A line that ends while `firstLine` is empty is the request line, and the other ones are header lines. -/

namespace SimpleHttp
namespace HttpRequest

/-! ### Lines and their lengths -/

/-- The bytes of lines with their line ends. -/
def linesLength (ls : List ByteString) : Nat := (ls.map fun l => l.length + 2).sum

/-- The bytes of the header block at the begin of lines, with its blank line. -/
def blockLength (ls : List ByteString) : Nat := linesLength (headerBlock ls) + 2

section Lines
variable {s t : ByteString} {l : ByteString} {ls ls' : List ByteString}

@[simp] theorem linesLength_nil : linesLength [] = 0 := rfl

@[simp] theorem linesLength_cons : linesLength (l :: ls) = l.length + 2 + linesLength ls := by
  simp [linesLength]

theorem linesLength_append : linesLength (ls ++ ls') = linesLength ls + linesLength ls' := by
  simp [linesLength]

/-- The lines take up the stream up to the bytes behind the last one. -/
theorem drop_linesLength (s : ByteString) :
    s.drop (linesLength (splitLines s).1) = (splitLines s).2 ∧ linesLength (splitLines s).1 ≤ s.length := by
  induction hn : s.length using Nat.strong_induction_on generalizing s with
  | _ n ih =>
    subst hn
    cases hfind : ByteString.find lineEnd s with
    | none =>
      rw [splitLines_of_find_none hfind]
      exact ⟨rfl, Nat.zero_le _⟩
    | some pos =>
      have hlen := ByteString.find_add_length_le hfind
      rw [length_lineEnd] at hlen
      obtain ⟨hdrop, hle⟩ := ih (s.drop (pos + 2)).length (by rw [List.length_drop]; omega) (s.drop (pos + 2)) rfl
      have htake : (s.take pos).length = pos := by
        rw [List.length_take]
        omega
      rw [splitLines_of_find_some hfind, linesLength_cons, htake]
      rw [List.drop_drop] at hdrop
      rw [List.length_drop] at hle
      exact ⟨hdrop, by omega⟩

theorem splitLines_snd (s : ByteString) : splitLines (splitLines s).2 = ([], (splitLines s).2) := by
  induction hn : s.length using Nat.strong_induction_on generalizing s with
  | _ n ih =>
    subst hn
    cases hfind : ByteString.find lineEnd s with
    | none => rw [splitLines_of_find_none hfind, splitLines_of_find_none hfind]
    | some pos =>
      have hlen := ByteString.find_add_length_le hfind
      rw [length_lineEnd] at hlen
      rw [splitLines_of_find_some hfind]
      exact ih (s.drop (pos + 2)).length (by rw [List.length_drop]; omega) (s.drop (pos + 2)) rfl

/-- More bytes end more lines, the first of them with the bytes that were left over. -/
theorem splitLines_append (s t : ByteString) : splitLines (s ++ t) =
    ((splitLines s).1 ++ (splitLines ((splitLines s).2 ++ t)).1, (splitLines ((splitLines s).2 ++ t)).2) := by
  induction hn : s.length using Nat.strong_induction_on generalizing s with
  | _ n ih =>
    subst hn
    cases hfind : ByteString.find lineEnd s with
    | none =>
      rw [splitLines_of_find_none hfind]
      rfl
    | some pos =>
      have hlen := ByteString.find_add_length_le hfind
      rw [length_lineEnd] at hlen
      have hdrop : (s ++ t).drop (pos + 2) = s.drop (pos + 2) ++ t := List.drop_append_of_le_length (by omega)
      have htake : (s ++ t).take pos = s.take pos := List.take_append_of_le_length (by omega)
      rw [splitLines_of_find_some hfind, splitLines_of_find_some (ByteString.find_append_of_some hfind t), hdrop, htake,
        ih (s.drop (pos + 2)).length (by rw [List.length_drop]; omega) (s.drop (pos + 2)) rfl]
      rfl

theorem headerBlock_of_not_mem (h : [] ∉ ls) : headerBlock ls = ls := by
  rw [headerBlock, List.takeWhile_eq_self_iff]
  intro l hl
  rw [decide_eq_true_iff]
  rintro rfl
  exact h hl

theorem headerBlock_append_of_not_mem (h : [] ∉ ls) : headerBlock (ls ++ ls') = ls ++ headerBlock ls' := by
  rw [headerBlock, List.takeWhile_append_of_pos]
  · rfl
  · intro l hl
    rw [decide_eq_true_iff]
    rintro rfl
    exact h hl

theorem headerBlock_append_of_mem (h : [] ∈ ls) : headerBlock (ls ++ ls') = headerBlock ls := by
  induction ls with
  | nil => cases h
  | cons l ls ih =>
    by_cases hl : l = []
    · simp [headerBlock, hl]
    · have hls : [] ∈ ls := (List.mem_cons.mp h).resolve_left fun h0 => hl h0.symm
      simpa [headerBlock, hl] using ih hls

theorem linesLength_take_headerBlock (h : [] ∈ ls) : blockLength ls ≤ linesLength ls := by
  induction ls with
  | nil => cases h
  | cons l ls ih =>
    by_cases hl : l = []
    · simp [blockLength, headerBlock, hl]
    · have hls : [] ∈ ls := (List.mem_cons.mp h).resolve_left fun h0 => hl h0.symm
      have hih := ih hls
      simp only [blockLength] at hih ⊢
      simp only [headerBlock, hl, ne_eq, not_false_eq_true, decide_true, List.takeWhile_cons_of_pos, linesLength_cons] at hih ⊢
      omega

theorem length_le_blockLength (l : ByteString) (ls : List ByteString) : l.length + 2 ≤ blockLength (l :: ls) := by
  by_cases hl : l = []
  · simp [blockLength, headerBlock, hl]
  · simp only [blockLength, headerBlock, hl, ne_eq, not_false_eq_true, decide_true, List.takeWhile_cons_of_pos,
      linesLength_cons]
    omega

theorem find_eq_none_of_splitLines (h : (splitLines s).1 = []) : ByteString.find lineEnd s = none := by
  cases hfind : ByteString.find lineEnd s with
  | none => rfl
  | some pos =>
    rw [splitLines_of_find_some hfind] at h
    cases h

/-- A line that was not complete before ends behind what there was of it. -/
theorem length_lt_of_splitLines (hs : (splitLines s).1 = []) (hls : (splitLines (s ++ t)).1 = l :: ls) :
    s.length < l.length + 2 := by
  have hnone := find_eq_none_of_splitLines hs
  cases hfind : ByteString.find lineEnd (s ++ t) with
  | none =>
    rw [splitLines_of_find_none hfind] at hls
    cases hls
  | some pos =>
    rw [splitLines_of_find_some hfind] at hls
    obtain ⟨rfl, -⟩ := List.cons.inj hls
    have hlen := ByteString.find_add_length_le hfind
    rw [length_lineEnd, List.length_append] at hlen
    rw [List.length_take, List.length_append, Nat.min_eq_left (by omega)]
    by_contra hin
    have hstart := ByteString.prefix_drop_of_find hfind
    rw [List.drop_append_of_le_length (by omega)] at hstart
    have hline : lineEnd <+: s.drop pos :=
      List.prefix_of_prefix_length_le hstart (List.prefix_append ..) (by rw [length_lineEnd, List.length_drop]; omega)
    exact ByteString.find_eq_none_iff.mp hnone (hline.isInfix.trans (List.drop_suffix pos s).isInfix)

theorem addHeaders_append_list (m : ByteString → Option ByteString) (hs hs' : List (ByteString × ByteString)) :
    addHeaders m (hs ++ hs') = addHeaders (addHeaders m hs) hs' := List.foldl_append

end Lines

/-! ### The head -/

/-- What the lines of a stream have been taken for: the bytes behind the last line, the request line, the header lines
    in front of the blank one, the bytes that have been taken, and whether the blank line is one of them. -/
structure Head where
  rest : ByteString := []
  firstLine : ByteString := []
  lines : List ByteString := []
  length : Nat := 0
  complete : Bool := false
  deriving DecidableEq, Repr

/-- Of the lines that end with a chunk, the one that `SetFirstLine` takes: `firstLine` is empty. -/
def requestPart (firstLine : ByteString) (ls : List ByteString) : List ByteString :=
  if firstLine = [] then ls.take 1 else []

/-- The lines that are left for `SetHeaders`. -/
def headerPart (firstLine : ByteString) (ls : List ByteString) : List ByteString :=
  if firstLine = [] then ls.drop 1 else ls

namespace Head

/-- A head that the lines `ls` are added to. -/
def addLines (h : Head) (ls : List ByteString) (rest : ByteString) : Head :=
  if [] ∈ headerPart h.firstLine ls then
    { rest := []
      firstLine := (requestPart h.firstLine ls).headD h.firstLine
      lines := h.lines ++ headerBlock (headerPart h.firstLine ls)
      length := h.length + linesLength (requestPart h.firstLine ls) + blockLength (headerPart h.firstLine ls)
      complete := true }
  else
    { rest
      firstLine := (requestPart h.firstLine ls).headD h.firstLine
      lines := h.lines ++ headerPart h.firstLine ls
      length := h.length + linesLength ls
      complete := false }

/-- The head after one more chunk. -/
def read (h : Head) (s : ByteString) : Head :=
  if h.complete then h else h.addLines (splitLines (h.rest ++ s)).1 (splitLines (h.rest ++ s)).2

/-- The object while the head is incomplete. -/
def request (h : Head) : HttpRequest :=
  { buf := h.rest, firstLine := h.firstLine, headers := addHeaders (fun _ => none) (h.lines.map lineHeader) }

/-- The header lines have colons. -/
def Colons (h : Head) : Prop := ∀ l ∈ h.lines, headerSep ∈ l

/-- What `SetContentLength` makes of the header lines. -/
def declared (h : Head) : Except ByteString.StoiError Nat :=
  match lastValue (h.lines.map lineHeader) contentLengthHeader with
  | none => .ok 0
  | some v => (ByteString.stoi v).map toSizeT

end Head

/-- The head after the chunks of a stream. -/
def headOf (chunks : List ByteString) : Head := chunks.foldl Head.read {}

section Head
variable {q : HttpRequest} {ls ls' : List ByteString} {rest s f : ByteString} {h : Head} {chunks : List ByteString}

theorem headOf_concat (chunks : List ByteString) (s : ByteString) : headOf (chunks ++ [s]) = (headOf chunks).read s := by
  rw [headOf, List.foldl_append]
  rfl

theorem parts_append (f : ByteString) (ls : List ByteString) : requestPart f ls ++ headerPart f ls = ls := by
  unfold requestPart headerPart
  split
  · exact List.take_append_drop 1 ls
  · rfl

/-- `SetFirstLine` on the lines in the buffer. -/
theorem setFirstLine_eq (hls : splitLines q.buf = (ls, rest)) :
    setFirstLine q = { q with
      firstLine := (requestPart q.firstLine ls).headD q.firstLine
      buf := q.buf.drop (linesLength (requestPart q.firstLine ls)) } ∧
    splitLines (q.buf.drop (linesLength (requestPart q.firstLine ls))) = (headerPart q.firstLine ls, rest) := by
  unfold requestPart headerPart
  by_cases hnil : q.firstLine = []
  · rw [if_pos hnil, if_pos hnil]
    cases hfind : ByteString.find lineEnd q.buf with
    | none =>
      rw [splitLines_of_find_none hfind] at hls
      cases hls
      rw [setFirstLine_of_find_none hfind]
      exact ⟨rfl, splitLines_of_find_none hfind⟩
    | some pos =>
      have hlen := ByteString.find_add_length_le hfind
      rw [length_lineEnd] at hlen
      have htake : (q.buf.take pos).length = pos := by
        rw [List.length_take]
        omega
      rw [splitLines_of_find_some hfind] at hls
      cases hls
      rw [setFirstLine_of_find_some hnil hfind]
      simp [htake]
  · rw [if_neg hnil, if_neg hnil, setFirstLine_of_ne_nil hnil]
    exact ⟨rfl, hls⟩

/-- `SetHeaders` when the blank line is in the buffer. -/
theorem setHeaders_blank (hls : splitLines q.buf = (ls, rest)) (hmem : [] ∈ ls)
    (hcolon : ∀ l ∈ headerBlock ls, headerSep ∈ l) :
    setHeaders q = setContentLength { q with
      buf := q.buf.drop (blockLength ls)
      headers := addHeaders q.headers ((headerBlock ls).map lineHeader)
      headersParseComplete := true } := by
  induction ls generalizing q with
  | nil => cases hmem
  | cons l ls ih =>
    cases hfind : ByteString.find lineEnd q.buf with
    | none =>
      rw [splitLines_of_find_none hfind] at hls
      cases hls
    | some pos =>
      rw [splitLines_of_find_some hfind] at hls
      simp only [Prod.mk.injEq, List.cons.injEq] at hls
      obtain ⟨⟨hl, hls⟩, hrest⟩ := hls
      have hlen := ByteString.find_add_length_le hfind
      rw [length_lineEnd] at hlen
      have hlength : l.length = pos := by
        rw [← hl, List.length_take]
        omega
      by_cases hpos : pos = 0
      · subst hpos
        have hnil : l = [] := List.eq_nil_of_length_eq_zero hlength
        rw [setHeaders_of_find_zero hfind, hnil]
        rfl
      · have hne : l ≠ [] := List.ne_nil_of_length_pos (by omega)
        have hblock : headerBlock (l :: ls) = l :: headerBlock ls := by simp [headerBlock, hne]
        rw [hblock] at hcolon
        have hmem' : [] ∈ ls := (List.mem_cons.mp hmem).resolve_left fun h0 => hne h0.symm
        have hih := ih (q := { q with headers := addHeaders q.headers [lineHeader l], buf := q.buf.drop (pos + 2) })
          (Prod.ext hls hrest) hmem' fun l' hl' => hcolon l' (List.mem_cons_of_mem _ hl')
        rw [setHeaders_of_find_pos hfind hpos, hl, addHeader_of_colon q (hcolon l (List.mem_cons_self ..))]
        have hdrop : q.buf.drop (blockLength (l :: ls)) = (q.buf.drop (pos + 2)).drop (blockLength ls) := by
          rw [blockLength, hblock, linesLength_cons, hlength, blockLength, List.drop_drop, Nat.add_assoc]
        refine hih.trans ?_
        rw [hdrop, hblock]
        rfl

/-! ### One chunk -/

/-- The lines of the next chunk that `SetHeaders` looks at. -/
def Head.headerLines (h : Head) (s : ByteString) : List ByteString :=
  headerPart h.firstLine (splitLines (h.rest ++ s)).1

theorem Head.read_of_complete (hc : h.complete = true) : h.read s = h := by
  rw [Head.read, if_pos hc]

theorem Head.read_of_mem (hc : h.complete = false) (hmem : [] ∈ h.headerLines s) : h.read s =
    { rest := []
      firstLine := (requestPart h.firstLine (splitLines (h.rest ++ s)).1).headD h.firstLine
      lines := h.lines ++ headerBlock (h.headerLines s)
      length := h.length + linesLength (requestPart h.firstLine (splitLines (h.rest ++ s)).1) + blockLength (h.headerLines s)
      complete := true } := by
  rw [Head.read, if_neg (by rw [hc]; exact Bool.false_ne_true), Head.addLines]
  exact if_pos hmem

theorem Head.read_of_not_mem (hc : h.complete = false) (hmem : [] ∉ h.headerLines s) : h.read s =
    { rest := (splitLines (h.rest ++ s)).2
      firstLine := (requestPart h.firstLine (splitLines (h.rest ++ s)).1).headD h.firstLine
      lines := h.lines ++ h.headerLines s
      length := h.length + linesLength (splitLines (h.rest ++ s)).1
      complete := false } := by
  rw [Head.read, if_neg (by rw [hc]; exact Bool.false_ne_true), Head.addLines]
  exact if_neg hmem

/-- The object when the blank line has been taken, in front of `SetContentLength`. -/
def Head.opened (h : Head) (s : ByteString) : HttpRequest :=
  { buf := (h.rest ++ s).drop ((h.read s).length - h.length)
    firstLine := (h.read s).firstLine
    headers := addHeaders (fun _ => none) ((h.read s).lines.map lineHeader)
    headersParseComplete := true }

/-- `Append` while the head is incomplete: a header line without a colon throws, else the object is the one of the longer
    head, up to the declared length when the blank line is in. -/
theorem append_request (h : Head) (s : ByteString) (hc : h.complete = false) :
    ((∃ l ∈ headerBlock (h.headerLines s), headerSep ∉ l) → ∃ e, append h.request s = .error e) ∧
    ((∀ l ∈ headerBlock (h.headerLines s), headerSep ∈ l) → [] ∉ h.headerLines s →
      append h.request s = .ok (h.read s).request) ∧
    ((∀ l ∈ headerBlock (h.headerLines s), headerSep ∈ l) → [] ∈ h.headerLines s →
      append h.request s = setContentLength (h.opened s) >>= fun q => .ok (parseMessageBody q)) := by
  obtain ⟨hfirst, hsplit⟩ := setFirstLine_eq (q := h.request.addBuf s) (Prod.mk.eta (p := splitLines (h.rest ++ s))).symm
  have hlines : splitLines (setFirstLine (h.request.addBuf s)).buf = (h.headerLines s, (splitLines (h.rest ++ s)).2) := by
    rw [hfirst]
    exact hsplit
  have hhead : (setFirstLine (h.request.addBuf s)).headersParseComplete = false := by rw [hfirst]; rfl
  obtain ⟨-, hopen, herror⟩ := setHeaders_lines hhead hlines
  have happend : append h.request s =
      setHeaders (setFirstLine (h.request.addBuf s)) >>= fun q => .ok (parseMessageBody q) := append_of_head rfl rfl
  refine ⟨?_, ?_, ?_⟩
  · rintro ⟨l, hl, hno⟩
    have hnot : ¬Taken (setFirstLine (h.request.addBuf s)).headers (h.headerLines s) := fun ht => hno (ht.1 l hl)
    obtain ⟨e, he⟩ := herror hnot
    rw [happend, he]
    exact ⟨e, rfl⟩
  · intro hcolon hmem
    have ht : Taken (setFirstLine (h.request.addBuf s)).headers (h.headerLines s) :=
      ⟨hcolon, fun hin => absurd hin hmem⟩
    rw [happend, hopen ht hmem, Head.read_of_not_mem hc hmem, hfirst]
    refine (congrArg Except.ok (parseMessageBody_of_head rfl)).trans ?_
    rw [Head.request, Head.request, List.map_append, addHeaders_append_list]
    rfl
  · intro hcolon hmem
    have hlength : (h.read s).length - h.length = linesLength (requestPart h.firstLine (splitLines (h.rest ++ s)).1) +
        blockLength (h.headerLines s) := by
      rw [Head.read_of_mem hc hmem]
      show h.length + _ + _ - h.length = _
      omega
    rw [happend, setHeaders_blank hlines hmem hcolon, hfirst, Head.opened, hlength, Head.read_of_mem hc hmem,
      List.map_append, addHeaders_append_list, ← List.drop_drop]
    rfl

theorem Head.lines_begin (h : Head) (s : ByteString) : h.lines <+: (h.read s).lines := by
  cases hc : h.complete with
  | true => rw [Head.read_of_complete hc]
  | false =>
    by_cases hmem : [] ∈ h.headerLines s
    · rw [Head.read_of_mem hc hmem]
      exact List.prefix_append ..
    · rw [Head.read_of_not_mem hc hmem]
      exact List.prefix_append ..

theorem Head.Colons.of_read (hcolons : (h.read s).Colons) : h.Colons :=
  fun l hl => hcolons l ((h.lines_begin s).subset hl)

/-- The lines that a chunk adds to the header block are those that have to have colons. -/
theorem Head.colons_read_iff (hc : h.complete = false) (hcolons : h.Colons) :
    (h.read s).Colons ↔ ∀ l ∈ headerBlock (h.headerLines s), headerSep ∈ l := by
  have hlines : (h.read s).lines = h.lines ++ headerBlock (h.headerLines s) := by
    by_cases hmem : [] ∈ h.headerLines s
    · rw [Head.read_of_mem hc hmem]
    · rw [Head.read_of_not_mem hc hmem, headerBlock_of_not_mem hmem]
  rw [Head.Colons, hlines]
  constructor
  · exact fun hall l hl => hall l (List.mem_append_right _ hl)
  · intro hall l hl
    rcases List.mem_append.mp hl with hl | hl
    · exact hcolons l hl
    · exact hall l hl

theorem Head.complete_read (hc : h.complete = false) : (h.read s).complete = true ↔ [] ∈ h.headerLines s := by
  by_cases hmem : [] ∈ h.headerLines s
  · rw [Head.read_of_mem hc hmem]
    exact iff_of_true rfl hmem
  · rw [Head.read_of_not_mem hc hmem]
    exact iff_of_false Bool.false_ne_true hmem

/-! ### Where the head ends -/

/-- What has been taken is a piece of the stream, and while the head is incomplete the rest is all that is left. -/
theorem headOf_length (chunks : List ByteString) : (headOf chunks).length ≤ chunks.flatten.length ∧
    ((headOf chunks).complete = false → chunks.flatten.drop (headOf chunks).length = (headOf chunks).rest) := by
  induction chunks using List.reverseRecOn with
  | nil => exact ⟨le_refl _, fun _ => rfl⟩
  | append_singleton chunks s ih =>
    obtain ⟨hle, hrest⟩ := ih
    rw [headOf_concat, List.flatten_append, List.flatten_singleton, List.length_append]
    cases hc : (headOf chunks).complete with
    | true =>
      rw [Head.read_of_complete hc, hc]
      exact ⟨by omega, fun h => by cases h⟩
    | false =>
      have hdrop : (chunks.flatten ++ s).drop (headOf chunks).length = (headOf chunks).rest ++ s := by
        rw [List.drop_append_of_le_length hle, hrest hc]
      have hlength : (headOf chunks).length + ((headOf chunks).rest ++ s).length = chunks.flatten.length + s.length := by
        rw [← hdrop, List.length_drop, List.length_append]
        omega
      obtain ⟨hlines, hlines_le⟩ := drop_linesLength ((headOf chunks).rest ++ s)
      by_cases hmem : [] ∈ (headOf chunks).headerLines s
      · have hblock := linesLength_take_headerBlock hmem
        have hparts := congrArg linesLength (parts_append (headOf chunks).firstLine (splitLines ((headOf chunks).rest ++ s)).1)
        rw [linesLength_append] at hparts
        rw [Head.headerLines] at hblock
        rw [Head.read_of_mem hc hmem, Head.headerLines]
        exact ⟨by dsimp only; omega, fun h => by cases h⟩
      · rw [Head.read_of_not_mem hc hmem]
        refine ⟨by dsimp only; omega, fun _ => ?_⟩
        rw [← hlines, ← hdrop, List.drop_drop]

/-- The object in front of `SetContentLength` has what follows the blank line in its buffer. -/
theorem Head.opened_buf (hc : (headOf chunks).complete = false) (hmem : [] ∈ (headOf chunks).headerLines s) :
    ((headOf chunks).opened s).buf = (chunks ++ [s]).flatten.drop (headOf (chunks ++ [s])).length := by
  obtain ⟨hle, hrest⟩ := headOf_length chunks
  have hmore : (headOf chunks).length ≤ ((headOf chunks).read s).length := by
    rw [Head.read_of_mem hc hmem]
    exact (Nat.le_add_right ..).trans (Nat.le_add_right ..)
  rw [Head.opened, headOf_concat, ← hrest hc, ← List.drop_append_of_le_length hle, List.drop_drop,
    Nat.add_sub_cancel' hmore, List.flatten_append, List.flatten_singleton]

/-- The bytes that are left over have no line in them. -/
theorem headOf_rest (chunks : List ByteString) : (splitLines (headOf chunks).rest).1 = [] := by
  induction chunks using List.reverseRecOn with
  | nil => rfl
  | append_singleton chunks s ih =>
    rw [headOf_concat]
    cases hc : (headOf chunks).complete with
    | true => rwa [Head.read_of_complete hc]
    | false =>
      by_cases hmem : [] ∈ (headOf chunks).headerLines s
      · rw [Head.read_of_mem hc hmem]
        rfl
      · rw [Head.read_of_not_mem hc hmem]
        exact congrArg Prod.fst (splitLines_snd _)

/-- The blank line ends in the chunk that completes the head. -/
theorem headOf_length_lt (hc : (headOf chunks).complete = false) (hmem : [] ∈ (headOf chunks).headerLines s) :
    chunks.flatten.length < (headOf (chunks ++ [s])).length := by
  obtain ⟨hle, hrest⟩ := headOf_length chunks
  have hlength : (headOf chunks).length + (headOf chunks).rest.length = chunks.flatten.length := by
    rw [← hrest hc, List.length_drop]
    omega
  obtain ⟨l, ls, hls⟩ : ∃ l ls, (splitLines ((headOf chunks).rest ++ s)).1 = l :: ls := by
    rw [Head.headerLines] at hmem
    refine List.exists_cons_of_ne_nil fun hnil => ?_
    rw [hnil, headerPart] at hmem
    split at hmem <;> cases hmem
  have hfirst := length_lt_of_splitLines (headOf_rest chunks) hls
  have hparts : l.length + 2 ≤ linesLength (requestPart (headOf chunks).firstLine (l :: ls)) +
      blockLength (headerPart (headOf chunks).firstLine (l :: ls)) := by
    unfold requestPart headerPart
    split
    · simp
    · exact (length_le_blockLength l ls).trans (Nat.le_add_left ..)
  rw [headOf_concat, Head.read_of_mem hc hmem, Head.headerLines, hls]
  dsimp only
  omega

end Head

end HttpRequest
end SimpleHttp
