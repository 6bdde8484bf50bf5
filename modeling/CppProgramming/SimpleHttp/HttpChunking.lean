import CppProgramming.SimpleHttp.HttpRequest

/-! # The parser and the chunks of a stream

What `HttpRequest` makes of a stream does not depend on how the stream is cut into the chunks that
`Append` gets. Taking complete lines out of `buf` commutes with more bytes arriving behind them
(`setHeaders_addBuf`), so two calls of `Append` do what one call with both chunks does, up to the bytes
of `messageBody` beyond `contentLength` (`append_append`). -/

namespace SimpleHttp
namespace HttpRequest

/-! ### Unfolding the loop -/

@[simp] theorem length_lineEnd : lineEnd.length = 2 := rfl

theorem addHeader_eq_ok {q q' : HttpRequest} {s : ByteString} (h : addHeader q s = .ok q') :
    q' = { q with headers := q'.headers } := by
  unfold addHeader at h
  split at h
  · cases h
  · cases h
    rfl

/-- More rounds than `buf` has bytes make no difference. -/
theorem setHeadersLoop_fuel {n m : Nat} {q : HttpRequest} (hn : q.buf.length < n) (hm : q.buf.length < m) :
    setHeadersLoop n q = setHeadersLoop m q := by
  induction n generalizing q m with
  | zero => omega
  | succ n ih =>
    obtain ⟨m, rfl⟩ : ∃ k, m = k + 1 := ⟨m - 1, by omega⟩
    unfold setHeadersLoop
    split
    · rfl
    · rfl
    · next pos _ hfind =>
      cases hadd : addHeader q (q.buf.take pos) with
      | error e => rfl
      | ok q' =>
        have hbuf : q'.buf = q.buf := by rw [addHeader_eq_ok hadd]
        have hpos := ByteString.find_add_length_le hfind
        simp only [length_lineEnd] at hpos
        apply ih <;> simp only [hbuf, List.length_drop, length_lineEnd] <;> omega

/-- `SetHeaders` as the source writes it: each line end that is found ends the header block or a header
    line, and the loop goes on behind a header line. -/
theorem setHeaders_eq (q : HttpRequest) : setHeaders q =
    match ByteString.find lineEnd q.buf with
    | none => .ok q
    | some 0 => setContentLength { q with buf := q.buf.drop 2, headersParseComplete := true }
    | some pos => addHeader q (q.buf.take pos) >>= fun q' => setHeaders { q' with buf := q'.buf.drop (pos + 2) } := by
  rw [setHeaders, setHeadersLoop]
  cases hfind : ByteString.find lineEnd q.buf with
  | none => rfl
  | some pos =>
    cases pos with
    | zero => rfl
    | succ k =>
      show (addHeader q (q.buf.take (k + 1)) >>= fun q' => setHeadersLoop q.buf.length { q' with buf := q'.buf.drop (k + 1 + 2) }) =
        (addHeader q (q.buf.take (k + 1)) >>= fun q' => setHeaders { q' with buf := q'.buf.drop (k + 1 + 2) })
      cases hadd : addHeader q (q.buf.take (k + 1)) with
      | error e => rfl
      | ok q' =>
        have hbuf : q'.buf = q.buf := by rw [addHeader_eq_ok hadd]
        have hpos := ByteString.find_add_length_le hfind
        simp only [length_lineEnd] at hpos
        apply setHeadersLoop_fuel <;> simp only [hbuf, List.length_drop] <;> omega

theorem setHeaders_of_find_none {q : HttpRequest} (h : ByteString.find lineEnd q.buf = none) :
    setHeaders q = .ok q := by
  rw [setHeaders_eq, h]

theorem setHeaders_of_find_zero {q : HttpRequest} (h : ByteString.find lineEnd q.buf = some 0) :
    setHeaders q = setContentLength { q with buf := q.buf.drop 2, headersParseComplete := true } := by
  rw [setHeaders_eq, h]
  rfl

theorem setHeaders_of_find_pos {q : HttpRequest} {pos : Nat} (h : ByteString.find lineEnd q.buf = some pos)
    (hpos : pos ≠ 0) : setHeaders q =
      addHeader q (q.buf.take pos) >>= fun q' => setHeaders { q' with buf := q'.buf.drop (pos + 2) } := by
  obtain ⟨k, rfl⟩ := Nat.exists_eq_succ_of_ne_zero hpos
  rw [setHeaders_eq, h]
  rfl

/-! ### More bytes behind the buffer -/

/-- The object with more bytes behind its buffer. -/
def addBuf (q : HttpRequest) (b : ByteString) : HttpRequest := { q with buf := q.buf ++ b }

theorem addHeader_addBuf (q : HttpRequest) (s b : ByteString) : addHeader (q.addBuf b) s =
    match addHeader q s with
    | .error (e, q') => .error (e, q'.addBuf b)
    | .ok q' => .ok (q'.addBuf b) := by
  unfold addHeader
  split <;> rfl

theorem setContentLength_addBuf (q : HttpRequest) (b : ByteString) : setContentLength (q.addBuf b) =
    match setContentLength q with
    | .error (e, q') => .error (e, q'.addBuf b)
    | .ok q' => .ok (q'.addBuf b) := by
  unfold setContentLength
  have hheaders : (q.addBuf b).headers = q.headers := rfl
  rw [hheaders]
  cases q.headers contentLengthHeader with
  | none => rfl
  | some v => dsimp only; cases ByteString.stoi v <;> rfl

/-- How a loop that stopped on a buffer goes on when more bytes arrive behind it: a thrown exception and
    a complete header block stay, otherwise `go` looks at the longer buffer. -/
def resume (b : ByteString) (go : HttpRequest → Except (ParseError × HttpRequest) HttpRequest) :
    Except (ParseError × HttpRequest) HttpRequest → Except (ParseError × HttpRequest) HttpRequest
  | .error (e, q) => .error (e, q.addBuf b)
  | .ok q => if q.headersParseComplete then .ok (q.addBuf b) else go (q.addBuf b)

theorem setContentLength_complete {q q' : HttpRequest} (h : setContentLength q = .ok q') :
    q' = { q with contentLength := q'.contentLength } := by
  unfold setContentLength at h
  split at h
  · cases h
    rfl
  · split at h
    · cases h
      rfl
    · cases h

/-- Taking lines out of the buffer commutes with bytes arriving behind it. -/
theorem setHeaders_addBuf {q : HttpRequest} (b : ByteString) (hq : q.headersParseComplete = false) :
    setHeaders (q.addBuf b) = resume b setHeaders (setHeaders q) := by
  -- Induction on the length of the buffer, which every header line shortens.
  induction hn : q.buf.length using Nat.strong_induction_on generalizing q with
  | _ n ih =>
    subst hn
    cases hfind : ByteString.find lineEnd q.buf with
    | none =>
      rw [setHeaders_of_find_none hfind]
      simp [resume, hq]
    | some pos =>
      have hfind' : ByteString.find lineEnd (q.addBuf b).buf = some pos := ByteString.find_append_of_some hfind b
      have hlen := ByteString.find_add_length_le hfind
      rw [length_lineEnd] at hlen
      have hdrop : ∀ k ≤ pos + 2, (q.buf ++ b).drop k = q.buf.drop k ++ b := fun k hk =>
        List.drop_append_of_le_length (by omega)
      by_cases hpos : pos = 0
      · subst hpos
        have hq2 : { q.addBuf b with buf := (q.addBuf b).buf.drop 2, headersParseComplete := true } =
            addBuf { q with buf := q.buf.drop 2, headersParseComplete := true } b := by
          simp [addBuf, hdrop 2 (by omega)]
        rw [setHeaders_of_find_zero hfind, setHeaders_of_find_zero hfind', hq2, setContentLength_addBuf]
        cases hc : setContentLength { q with buf := q.buf.drop 2, headersParseComplete := true } with
        | error e => rfl
        | ok q' =>
          have : q'.headersParseComplete = true := by rw [setContentLength_complete hc]
          simp [resume, this]
      · have htake : (q.addBuf b).buf.take pos = q.buf.take pos :=
          List.take_append_of_le_length (by omega)
        rw [setHeaders_of_find_pos hfind hpos, setHeaders_of_find_pos hfind' hpos, htake, addHeader_addBuf]
        cases hadd : addHeader q (q.buf.take pos) with
        | error e => rfl
        | ok q' =>
          have hq' := addHeader_eq_ok hadd
          have hbuf : q'.buf = q.buf := by rw [hq']
          have hq2 : { q'.addBuf b with buf := (q'.addBuf b).buf.drop (pos + 2) } =
              addBuf { q' with buf := q'.buf.drop (pos + 2) } b := by
            simp [addBuf, hbuf, hdrop (pos + 2) (by omega)]
          show setHeaders { q'.addBuf b with buf := (q'.addBuf b).buf.drop (pos + 2) } =
            resume b setHeaders (setHeaders { q' with buf := q'.buf.drop (pos + 2) })
          rw [hq2]
          refine ih _ ?_ (by rw [hq']; exact hq) rfl
          rw [List.length_drop, hbuf]
          omega

/-! ### First line and headers -/

/-- What `ParseRequest` does while the header block is incomplete. -/
def parseHead (q : HttpRequest) : Except (ParseError × HttpRequest) HttpRequest := setHeaders (setFirstLine q)

theorem setFirstLine_of_ne_nil {q : HttpRequest} (h : q.firstLine ≠ []) : setFirstLine q = q := by
  rw [setFirstLine, if_pos h]

theorem setFirstLine_of_find_none {q : HttpRequest} (h : ByteString.find lineEnd q.buf = none) :
    setFirstLine q = q := by
  unfold setFirstLine
  split
  · rfl
  · rw [h]

theorem setFirstLine_of_find_some {q : HttpRequest} {pos : Nat} (hnil : q.firstLine = [])
    (h : ByteString.find lineEnd q.buf = some pos) :
    setFirstLine q = { q with firstLine := q.buf.take pos, buf := q.buf.drop (pos + 2) } := by
  rw [setFirstLine, if_neg (by simp [hnil]), h]
  rfl

theorem parseHead_of_find_none {q : HttpRequest} (h : ByteString.find lineEnd q.buf = none) :
    parseHead q = .ok q := by
  rw [parseHead, setFirstLine_of_find_none h, setHeaders_of_find_none h]

theorem parseHead_of_ne_nil {q : HttpRequest} (h : q.firstLine ≠ []) : parseHead q = setHeaders q := by
  rw [parseHead, setFirstLine_of_ne_nil h]

theorem setHeaders_frame {q q' : HttpRequest} (h : setHeaders q = .ok q') :
    q'.firstLine = q.firstLine ∧ q'.totalParseComplete = q.totalParseComplete := by
  induction hn : q.buf.length using Nat.strong_induction_on generalizing q with
  | _ n ih =>
    subst hn
    cases hfind : ByteString.find lineEnd q.buf with
    | none =>
      rw [setHeaders_of_find_none hfind] at h
      cases h
      exact ⟨rfl, rfl⟩
    | some pos =>
      by_cases hpos : pos = 0
      · subst hpos
        rw [setHeaders_of_find_zero hfind] at h
        rw [setContentLength_complete h]
        exact ⟨rfl, rfl⟩
      · rw [setHeaders_of_find_pos hfind hpos] at h
        cases hadd : addHeader q (q.buf.take pos) with
        | error e =>
          rw [hadd] at h
          cases h
        | ok q₁ =>
          rw [hadd] at h
          have hq₁ := addHeader_eq_ok hadd
          have hbuf : q₁.buf = q.buf := by rw [hq₁]
          have hlen := ByteString.find_add_length_le hfind
          rw [length_lineEnd] at hlen
          have := ih _ (by simp only [List.length_drop, hbuf]; omega) h rfl
          rw [this.1, this.2, hq₁]
          exact ⟨rfl, rfl⟩

/-- The first line and the headers, with bytes arriving behind the buffer. The stream must not begin
    with a line end: an empty first line is not told from a missing one. -/
theorem parseHead_addBuf {q : HttpRequest} (b : ByteString) (hq : q.headersParseComplete = false)
    (hstart : q.firstLine = [] → ¬lineEnd <+: q.buf ++ b) :
    parseHead (q.addBuf b) = resume b parseHead (parseHead q) := by
  have later : ∀ {q' : HttpRequest}, q'.firstLine ≠ [] → q'.headersParseComplete = false →
      setHeaders (q'.addBuf b) = resume b parseHead (setHeaders q') := by
    intro q' hne hq'
    rw [setHeaders_addBuf b hq']
    cases hs : setHeaders q' with
    | error e => rfl
    | ok q₁ =>
      have hne₁ : (q₁.addBuf b).firstLine ≠ [] := by
        show q₁.firstLine ≠ []
        rw [(setHeaders_frame hs).1]
        exact hne
      simp only [resume, parseHead_of_ne_nil hne₁]
  by_cases hne : q.firstLine = []
  · cases hfind : ByteString.find lineEnd q.buf with
    | none =>
      rw [parseHead_of_find_none hfind]
      simp [resume, hq]
    | some pos =>
      have hfind' : ByteString.find lineEnd (q.addBuf b).buf = some pos := ByteString.find_append_of_some hfind b
      have hlen := ByteString.find_add_length_le hfind
      rw [length_lineEnd] at hlen
      have hpos : pos ≠ 0 := by
        rintro rfl
        exact hstart hne (ByteString.find_zero_iff.mp hfind')
      have hline : setFirstLine (q.addBuf b) = (setFirstLine q).addBuf b := by
        rw [setFirstLine_of_find_some hne hfind, setFirstLine_of_find_some (q := q.addBuf b) hne hfind']
        simp only [addBuf, List.take_append_of_le_length (show pos ≤ q.buf.length by omega),
          List.drop_append_of_le_length (show pos + 2 ≤ q.buf.length by omega)]
      rw [parseHead, hline, parseHead]
      apply later
      · rw [setFirstLine_of_find_some hne hfind]
        intro hnil
        have := congrArg List.length hnil
        simp only [List.length_take, List.length_nil] at this
        omega
      · rw [setFirstLine_of_find_some hne hfind]
        exact hq
  · rw [parseHead_of_ne_nil hne, parseHead_of_ne_nil (q := q.addBuf b) hne]
    exact later hne hq

/-! ### Two calls of `Append` and one -/

/-- Two objects are the same, except that the second may have more bytes of the message body beyond
    `contentLength`, once the request is complete. -/
structure Agree (q q' : HttpRequest) : Prop where
  buf : q.buf = q'.buf
  contentLength : q.contentLength = q'.contentLength
  firstLine : q.firstLine = q'.firstLine
  headers : q.headers = q'.headers
  headersParseComplete : q.headersParseComplete = q'.headersParseComplete
  totalParseComplete : q.totalParseComplete = q'.totalParseComplete
  body : q.messageBody.take q.contentLength = q'.messageBody.take q.contentLength
  more : q.messageBody <+: q'.messageBody
  open_ : q.totalParseComplete = false → q.messageBody = q'.messageBody

namespace Agree
variable {q q' q'' : HttpRequest}

theorem refl (q : HttpRequest) : Agree q q :=
  ⟨rfl, rfl, rfl, rfl, rfl, rfl, rfl, List.prefix_rfl, fun _ => rfl⟩

theorem trans (h : Agree q q') (h' : Agree q' q'') : Agree q q'' where
  buf := h.buf.trans h'.buf
  contentLength := h.contentLength.trans h'.contentLength
  firstLine := h.firstLine.trans h'.firstLine
  headers := h.headers.trans h'.headers
  headersParseComplete := h.headersParseComplete.trans h'.headersParseComplete
  totalParseComplete := h.totalParseComplete.trans h'.totalParseComplete
  body := by
    rw [h.body, h.contentLength]
    exact h'.body
  more := h.more.trans h'.more
  open_ hq := (h.open_ hq).trans (h'.open_ (h.totalParseComplete ▸ hq))

theorem eq_of_open (h : Agree q q') (hq : q.totalParseComplete = false) : q = q' := by
  have hbody := h.open_ hq
  cases h
  cases q
  cases q'
  simp_all

end Agree

/-- Both threw, or both returned and left objects that agree. -/
def Same : Except (ParseError × HttpRequest) HttpRequest → Except (ParseError × HttpRequest) HttpRequest → Prop
  | .error _, .error _ => True
  | .ok q, .ok q' => Agree q q'
  | _, _ => False

namespace Same
variable {r r' r'' : Except (ParseError × HttpRequest) HttpRequest}

theorem refl (r : Except (ParseError × HttpRequest) HttpRequest) : Same r r := by
  cases r with
  | error e => trivial
  | ok q => exact Agree.refl q

theorem trans (h : Same r r') (h' : Same r' r'') : Same r r'' := by
  cases r <;> cases r' <;> cases r'' <;> first | trivial | exact h.elim | exact h'.elim | exact Agree.trans h h'

theorem of_error {e : ParseError × HttpRequest} (h : Same r (.error e)) : ∃ e', r = .error e' := by
  cases r with
  | error e' => exact ⟨e', rfl⟩
  | ok q => exact h.elim

theorem of_ok {q' : HttpRequest} (h : Same r (.ok q')) : ∃ q, r = .ok q ∧ Agree q q' := by
  cases r with
  | error e => exact h.elim
  | ok q => exact ⟨q, rfl, h⟩

theorem append (h : Same r r') (s : ByteString) :
    Same (r >>= fun q => HttpRequest.append q s) (r' >>= fun q => HttpRequest.append q s) := by
  cases r with
  | error e =>
    cases r' with
    | error e' => trivial
    | ok q' => exact h.elim
  | ok q =>
    cases r' with
    | error e' => exact h.elim
    | ok q' =>
      have h : Agree q q' := h
      show Same (HttpRequest.append q s) (HttpRequest.append q' s)
      cases htotal : q.totalParseComplete with
      | true =>
        rw [HttpRequest.append, HttpRequest.append, if_pos htotal, if_pos (h.totalParseComplete ▸ htotal)]
        exact h
      | false =>
        rw [h.eq_of_open htotal]
        exact Same.refl _

end Same

theorem append_of_head {q : HttpRequest} {b : ByteString} (hopen : q.totalParseComplete = false)
    (hhead : q.headersParseComplete = false) :
    append q b = parseHead (q.addBuf b) >>= fun q => .ok (parseMessageBody q) := by
  have : (!(q.addBuf b).headersParseComplete) = true := by simp [addBuf, hhead]
  rw [append, if_neg (by simp [hopen])]
  show parseRequest (q.addBuf b) = _
  rw [parseRequest, if_pos this]
  rfl

theorem append_of_body {q : HttpRequest} {b : ByteString} (hopen : q.totalParseComplete = false)
    (hhead : q.headersParseComplete = true) : append q b = .ok (parseMessageBody (q.addBuf b)) := by
  have : ¬(!(q.addBuf b).headersParseComplete) = true := by simp [addBuf, hhead]
  rw [append, if_neg (by simp [hopen])]
  show parseRequest (q.addBuf b) = _
  rw [parseRequest, if_neg this]
  rfl

theorem parseHead_open {q : HttpRequest} {s : ByteString} (h : parseHead (addBuf {} s) = .ok q) :
    q.totalParseComplete = false := by
  have hline : (setFirstLine (addBuf {} s)).totalParseComplete = false := by
    unfold setFirstLine
    split
    · rfl
    · split <;> rfl
  rw [(setHeaders_frame h).2, hline]

/-- The body part of `Append`, when the header block has just been completed or was complete before. -/
theorem parseMessageBody_append {q : HttpRequest} (b : ByteString) (hhead : q.headersParseComplete = true)
    (hopen : q.totalParseComplete = false) :
    Same (append (parseMessageBody q) b) (.ok (parseMessageBody (q.addBuf b))) := by
  have hlhs : parseMessageBody (q.addBuf b) = { q with
      messageBody := q.messageBody ++ (q.buf ++ b)
      totalParseComplete := decide ((q.messageBody ++ (q.buf ++ b)).length ≥ q.contentLength)
      buf := [] } := by
    simp [parseMessageBody, addBuf, hhead, hopen]
  have hmid : parseMessageBody q = { q with
      messageBody := q.messageBody ++ q.buf
      totalParseComplete := decide ((q.messageBody ++ q.buf).length ≥ q.contentLength)
      buf := [] } := by
    simp [parseMessageBody, hhead, hopen]
  rw [hlhs, hmid]
  by_cases hlen : (q.messageBody ++ q.buf).length ≥ q.contentLength
  · -- The request was complete before `b`, whose bytes are dropped or lie beyond `contentLength`.
    have hlen' : (q.messageBody ++ (q.buf ++ b)).length ≥ q.contentLength := by
      simp only [List.length_append] at hlen ⊢
      omega
    simp only [append, hlen, hlen', decide_true, if_true]
    refine ⟨rfl, rfl, rfl, rfl, rfl, rfl, ?_, ?_, fun h => Bool.noConfusion h⟩
    · show (q.messageBody ++ q.buf).take q.contentLength = (q.messageBody ++ (q.buf ++ b)).take q.contentLength
      rw [← List.append_assoc, List.take_append_of_le_length hlen]
    · show q.messageBody ++ q.buf <+: q.messageBody ++ (q.buf ++ b)
      rw [← List.append_assoc]
      exact List.prefix_append _ _
  · have hmore : append { q with
        messageBody := q.messageBody ++ q.buf
        totalParseComplete := decide ((q.messageBody ++ q.buf).length ≥ q.contentLength)
        buf := [] } b = .ok { q with
          messageBody := q.messageBody ++ (q.buf ++ b)
          totalParseComplete := decide ((q.messageBody ++ (q.buf ++ b)).length ≥ q.contentLength)
          buf := [] } := by
      refine (append_of_body ?_ ?_).trans ?_
      · simpa using hlen
      · exact hhead
      · rw [List.length_append] at hlen
        simp [parseMessageBody, addBuf, hhead, hlen]
    rw [hmore]
    exact Same.refl _

theorem append_append {a b : ByteString} (hstart : ¬lineEnd <+: a ++ b) :
    Same (append {} a >>= fun q => append q b) (append {} (a ++ b)) := by
  have hone : ∀ s, append {} s = parseHead (addBuf {} s) >>= fun q => .ok (parseMessageBody q) := fun s => rfl
  have hhead : parseHead (addBuf {} (a ++ b)) = resume b parseHead (parseHead (addBuf {} a)) := by
    have : addBuf {} (a ++ b) = (addBuf {} a).addBuf b := rfl
    rw [this]
    exact parseHead_addBuf b rfl fun _ => hstart
  rw [hone, hone, hhead]
  cases hq : parseHead (addBuf {} a) with
  | error e => trivial
  | ok q =>
    have hopen : q.totalParseComplete = false := parseHead_open hq
    show Same (append (parseMessageBody q) b) (resume b parseHead (.ok q) >>= fun q => .ok (parseMessageBody q))
    cases hc : q.headersParseComplete with
    | true =>
      simp only [resume, hc, if_true]
      exact parseMessageBody_append b hc hopen
    | false =>
      have hbody : parseMessageBody q = q := by simp [parseMessageBody, hc]
      simp only [resume, hc, Bool.false_eq_true, if_false, hbody]
      rw [append_of_head hopen hc]
      exact Same.refl _

theorem feed_same (chunks : List ByteString) (hstart : ¬lineEnd <+: chunks.flatten) :
    Same (feed chunks) (append {} chunks.flatten) := by
  induction chunks using List.reverseRecOn with
  | nil => exact Same.refl _
  | append_singleton chunks c ih =>
    have hflat : (chunks ++ [c]).flatten = chunks.flatten ++ c := by simp
    rw [hflat] at hstart ⊢
    have hstart' : ¬lineEnd <+: chunks.flatten := fun h => hstart (h.trans (List.prefix_append _ _))
    have hfeed : feed (chunks ++ [c]) = feed chunks >>= fun q => append q c := by
      simp [feed, List.foldlM_append]
    rw [hfeed]
    exact ((ih hstart').append c).trans (append_append hstart)

/-- Every two ways to cut a stream that does not begin with a line end into chunks give the same result:
    both throw, or neither does and the objects agree. -/
theorem feed_chunking {w : ByteString} (hw : ¬lineEnd <+: w) {xs ys : List ByteString} (hx : xs.flatten = w)
    (hy : ys.flatten = w) :
    (∃ e e', feed xs = .error e ∧ feed ys = .error e') ∨
    ∃ q q', feed xs = .ok q ∧ feed ys = .ok q' ∧ q.firstLine = q'.firstLine ∧ q.headers = q'.headers ∧
      q.contentLength = q'.contentLength ∧ q.headersParseComplete = q'.headersParseComplete ∧
      q.totalParseComplete = q'.totalParseComplete ∧
      q.messageBody.take q.contentLength = q'.messageBody.take q.contentLength ∧
      (q.totalParseComplete = false → q.messageBody = q'.messageBody) := by
  have hxs := feed_same xs (by rwa [hx])
  have hys := feed_same ys (by rwa [hy])
  rw [hx] at hxs
  rw [hy] at hys
  -- Both are compared with the whole stream in one call.
  cases hwhole : append {} w with
  | error e =>
    rw [hwhole] at hxs hys
    obtain ⟨e₁, he₁⟩ := hxs.of_error
    obtain ⟨e₂, he₂⟩ := hys.of_error
    exact Or.inl ⟨e₁, e₂, he₁, he₂⟩
  | ok whole =>
    rw [hwhole] at hxs hys
    obtain ⟨q, hq, a⟩ := hxs.of_ok
    obtain ⟨q', hq', a'⟩ := hys.of_ok
    refine Or.inr ⟨q, q', hq, hq', a.firstLine.trans a'.firstLine.symm, a.headers.trans a'.headers.symm,
      a.contentLength.trans a'.contentLength.symm, a.headersParseComplete.trans a'.headersParseComplete.symm,
      a.totalParseComplete.trans a'.totalParseComplete.symm, ?_, fun hopen => ?_⟩
    · rw [a.body, a.contentLength, ← a'.contentLength, a'.body]
    · have hopen' : q'.totalParseComplete = false := by rw [a'.totalParseComplete, ← a.totalParseComplete, hopen]
      exact (a.open_ hopen).trans (a'.open_ hopen').symm

/-- `"a\r\nb:\r\n\r\n"`, cut inside both line ends and not cut at all. -/
theorem feed_chunking_split :
    (∃ e e', feed [[97, 13], [10, 98, 58, 13, 10, 13], [10]] = .error e ∧
      feed [[97, 13, 10, 98, 58, 13, 10, 13, 10]] = .error e') ∨
    ∃ q q', feed [[97, 13], [10, 98, 58, 13, 10, 13], [10]] = .ok q ∧
      feed [[97, 13, 10, 98, 58, 13, 10, 13, 10]] = .ok q' ∧ q.firstLine = q'.firstLine ∧ q.headers = q'.headers ∧
      q.contentLength = q'.contentLength ∧ q.headersParseComplete = q'.headersParseComplete ∧
      q.totalParseComplete = q'.totalParseComplete ∧
      q.messageBody.take q.contentLength = q'.messageBody.take q.contentLength ∧
      (q.totalParseComplete = false → q.messageBody = q'.messageBody) :=
  feed_chunking (w := [97, 13, 10, 98, 58, 13, 10, 13, 10]) (by decide) rfl rfl

end HttpRequest
end SimpleHttp
