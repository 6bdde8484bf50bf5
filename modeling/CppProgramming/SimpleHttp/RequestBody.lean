import CppProgramming.SimpleHttp.RequestHead

/-! # The body of a request

Behind the blank line the body is collected chunk by chunk until it is as long as the header block declares. The chunk
that reaches this length is taken whole. When the declared length is not a number for `std::stoi`, the exception leaves
a complete head with the length 0 behind. -/

namespace SimpleHttp
namespace HttpRequest

section Body
variable {q : HttpRequest} {s : ByteString} {chunks : List ByteString}

/-- An object with a complete head and the declared length `n`. Its body is what has come up to some chunk: the first
    one that reaches the declared length, or else the last one. -/
structure Holds (chunks : List ByteString) (n : Nat) (q : HttpRequest) : Prop where
  firstLine : q.firstLine = (headOf chunks).firstLine
  headers : q.headers = addHeaders (fun _ => none) ((headOf chunks).lines.map lineHeader)
  head : q.headersParseComplete = true
  contentLength : q.contentLength = n
  buf : q.buf = []
  body : ∃ upto, upto <+: chunks ∧ q.messageBody = upto.flatten.drop (headOf chunks).length ∧
    (headOf chunks).length ≤ upto.flatten.length ∧
    (∀ before, before <+: upto → before ≠ upto → before.flatten.length < (headOf chunks).length + n) ∧
    (q.totalParseComplete = true ↔ (headOf chunks).length + n ≤ upto.flatten.length) ∧
    (q.totalParseComplete = false → upto = chunks)

theorem Holds.append {n : Nat} (h : Holds chunks n q) (hc : (headOf chunks).complete = true) (s : ByteString) :
    ∃ q', append q s = .ok q' ∧ Holds (chunks ++ [s]) n q' := by
  have hsame : headOf (chunks ++ [s]) = headOf chunks := by rw [headOf_concat, Head.read_of_complete hc]
  obtain ⟨upto, hupto, hbody, hle, hfirst, htotal, hall⟩ := h.body
  cases hq : q.totalParseComplete with
  | true =>
    refine ⟨q, by rw [HttpRequest.append, if_pos hq], ?_⟩
    refine ⟨hsame ▸ h.firstLine, hsame ▸ h.headers, h.head, h.contentLength, h.buf, upto, ?_⟩
    rw [hsame]
    exact ⟨hupto.trans (List.prefix_append ..), hbody, hle, hfirst, htotal, fun hf => by rw [hq] at hf; cases hf⟩
  | false =>
    obtain rfl := hall hq
    have hbuf : (q.addBuf s).buf = s := by rw [addBuf, h.buf, List.nil_append]
    have hmore : (upto ++ [s]).flatten.drop (headOf upto).length = q.messageBody ++ s := by
      rw [List.flatten_append, List.flatten_singleton, List.drop_append_of_le_length hle, hbody]
    have hlength : (q.messageBody ++ s).length + (headOf upto).length = (upto ++ [s]).flatten.length := by
      rw [← hmore, List.length_drop, List.flatten_append, List.flatten_singleton, List.length_append]
      omega
    have hq' : parseMessageBody (q.addBuf s) = { q with
        messageBody := q.messageBody ++ s
        totalParseComplete := decide ((q.messageBody ++ s).length ≥ n)
        buf := [] } := by
      have hhead : (q.addBuf s).headersParseComplete = true := h.head
      have hopen : (q.addBuf s).totalParseComplete = false := hq
      rw [parseMessageBody, if_neg (by rw [hhead]; decide), if_neg (by rw [hopen]; decide), hbuf, ← h.contentLength]
      rfl
    refine ⟨_, (append_of_body hq h.head).trans (congrArg Except.ok hq'), ?_⟩
    refine ⟨hsame ▸ h.firstLine, hsame ▸ h.headers, h.head, h.contentLength, rfl, upto ++ [s], ?_⟩
    rw [hsame]
    refine ⟨List.prefix_rfl, hmore.symm, ?_, ?_, ?_, fun _ => rfl⟩
    · omega
    · intro before hbefore hne
      rcases List.prefix_concat_iff.mp hbefore with heq | hbefore
      · exact absurd heq hne
      · by_cases heq : before = upto
        · rw [heq, ← Nat.not_le, ← htotal, hq]
          exact Bool.false_ne_true
        · exact hfirst before hbefore heq
    · rw [decide_eq_true_iff]
      omega

/-- The first body: what is left of the chunk that completes the head. -/
theorem holds_opened {n : Nat} (hc : (headOf chunks).complete = false) (hmem : [] ∈ (headOf chunks).headerLines s) :
    Holds (chunks ++ [s]) n (parseMessageBody { (headOf chunks).opened s with contentLength := n }) := by
  have hbuf := Head.opened_buf hc hmem
  have hlt := headOf_length_lt hc hmem
  obtain ⟨hle, -⟩ := headOf_length (chunks ++ [s])
  have hread : headOf (chunks ++ [s]) = (headOf chunks).read s := headOf_concat chunks s
  have hlength : ((headOf chunks).opened s).buf.length + (headOf (chunks ++ [s])).length = (chunks ++ [s]).flatten.length := by
    rw [hbuf, List.length_drop]
    omega
  have hq : parseMessageBody { (headOf chunks).opened s with contentLength := n } = { (headOf chunks).opened s with
      contentLength := n
      messageBody := ((headOf chunks).opened s).buf
      totalParseComplete := decide (((headOf chunks).opened s).buf.length ≥ n)
      buf := [] } := rfl
  rw [hq]
  refine ⟨congrArg Head.firstLine hread.symm, ?_, rfl, rfl, rfl, chunks ++ [s], List.prefix_rfl, hbuf, hle, ?_, ?_,
    fun _ => rfl⟩
  · rw [hread]
    rfl
  · intro before hbefore hne
    rcases List.prefix_concat_iff.mp hbefore with heq | hbefore
    · exact absurd heq hne
    · have hshort : before.flatten.length ≤ chunks.flatten.length := by
        obtain ⟨rest, rfl⟩ := hbefore
        rw [List.flatten_append, List.length_append]
        exact Nat.le_add_right ..
      omega
  · rw [decide_eq_true_iff]
    omega

/-! ### Going on behind an exception -/

/-- The object behind a call of `Append`, whether it has returned or thrown. -/
def after (q : HttpRequest) (s : ByteString) : HttpRequest :=
  match append q s with
  | .ok q' => q'
  | .error (_, q') => q'

/-- The object behind calls of `Append` that go on when one of them throws. -/
def feedAll (chunks : List ByteString) : HttpRequest := chunks.foldl after {}

theorem feed_concat (chunks : List ByteString) (s : ByteString) :
    feed (chunks ++ [s]) = feed chunks >>= fun q => append q s := by
  simp [feed, List.foldlM_append]

theorem feedAll_concat (chunks : List ByteString) (s : ByteString) :
    feedAll (chunks ++ [s]) = after (feedAll chunks) s := by
  rw [feedAll, List.foldl_append]
  rfl

theorem feedAll_of_feed (h : feed chunks = .ok q) : feedAll chunks = q := by
  induction chunks using List.reverseRecOn generalizing q with
  | nil =>
    cases h
    rfl
  | append_singleton chunks s ih =>
    rw [feed_concat] at h
    cases hq : feed chunks with
    | error e =>
      rw [hq] at h
      cases h
    | ok q₀ =>
      rw [hq] at h
      have happend : append q₀ s = .ok q := h
      rw [feedAll_concat, ih hq, after, happend]

/-- What an exception of `std::stoi` leaves behind: a complete head with the length 0. -/
structure Broken (q : HttpRequest) : Prop where
  head : q.headersParseComplete = true
  contentLength : q.contentLength = 0

/-- Every later call of `Append` completes the request. -/
theorem Broken.after (h : Broken q) (s : ByteString) : Broken (after q s) ∧ (after q s).allReceived = true := by
  unfold HttpRequest.after
  cases hq : q.totalParseComplete with
  | true =>
    rw [append, if_pos hq]
    exact ⟨h, hq⟩
  | false =>
    have hhead : (q.addBuf s).headersParseComplete = true := h.head
    have hopen : (q.addBuf s).totalParseComplete = false := hq
    rw [append_of_body hq h.head, parseMessageBody, if_neg (by rw [hhead]; decide), if_neg (by rw [hopen]; decide)]
    refine ⟨⟨h.head, h.contentLength⟩, ?_⟩
    show decide (_ ≥ q.contentLength) = true
    rw [h.contentLength]
    exact decide_eq_true (Nat.zero_le _)

/-! ### The outcome of a stream -/

/-- How the calls of `Append` with the chunks of a stream end. -/
inductive Outcome (chunks : List ByteString) : Except (ParseError × HttpRequest) HttpRequest → Prop
  | head : (headOf chunks).complete = false → (headOf chunks).Colons → Outcome chunks (.ok (headOf chunks).request)
  | body {n : Nat} {q : HttpRequest} : (headOf chunks).complete = true → (headOf chunks).Colons →
      (headOf chunks).declared = .ok n → Holds chunks n q → Outcome chunks (.ok q)
  | line {e : ParseError × HttpRequest} : ¬(headOf chunks).Colons → Outcome chunks (.error e)
  | length {e : ParseError × HttpRequest} {error : ByteString.StoiError} : (headOf chunks).complete = true →
      (headOf chunks).Colons → (headOf chunks).declared = .error error → Broken (feedAll chunks) →
      Outcome chunks (.error e)

/-- `SetContentLength` on the header lines. -/
theorem setContentLength_opened (h : Head) (s : ByteString) :
    (∀ n, (h.read s).declared = .ok n → setContentLength (h.opened s) = .ok { h.opened s with contentLength := n }) ∧
    ∀ e, (h.read s).declared = .error e → setContentLength (h.opened s) = .error (.stoi e, h.opened s) := by
  have hheaders : (h.opened s).headers = lastValue ((h.read s).lines.map lineHeader) := addHeaders_eq_lastValue _
  unfold Head.declared setContentLength
  cases hv : (h.opened s).headers contentLengthHeader with
  | none =>
    rw [← hheaders, hv]
    refine ⟨fun n hn => ?_, fun e he => by cases he⟩
    cases hn
    rfl
  | some v =>
    rw [← hheaders, hv]
    cases hstoi : ByteString.stoi v with
    | ok m =>
      dsimp only
      rw [hstoi]
      refine ⟨fun n hn => ?_, fun e he => by cases he⟩
      cases hn
      rfl
    | error e' =>
      dsimp only
      rw [hstoi]
      refine ⟨fun n hn => (by cases hn), fun e he => ?_⟩
      cases he
      rfl

/-- One more chunk, up to the blank line. -/
theorem outcome_head (hc : (headOf chunks).complete = false) (hcolons : (headOf chunks).Colons)
    (hr : feed chunks = .ok (headOf chunks).request) (s : ByteString) :
    Outcome (chunks ++ [s]) (append (headOf chunks).request s) := by
  have hread := headOf_concat chunks s
  obtain ⟨herror, hopen, hblank⟩ := append_request (headOf chunks) s hc
  have hiff := Head.colons_read_iff (s := s) hc hcolons
  have hcomplete := Head.complete_read (s := s) hc
  rw [← hread] at hiff hcomplete hopen
  by_cases hall : (headOf (chunks ++ [s])).Colons
  · by_cases hmem : [] ∈ (headOf chunks).headerLines s
    · obtain ⟨hok, hthrow⟩ := setContentLength_opened (headOf chunks) s
      rw [← hread] at hok hthrow
      have happend := hblank (hiff.mp hall) hmem
      cases hdeclared : (headOf (chunks ++ [s])).declared with
      | ok n =>
        rw [hok n hdeclared] at happend
        rw [happend]
        exact .body (hcomplete.mpr hmem) hall hdeclared (holds_opened hc hmem)
      | error e =>
        rw [hthrow e hdeclared] at happend
        have hleft : feedAll (chunks ++ [s]) = (headOf chunks).opened s := by
          rw [feedAll_concat, feedAll_of_feed hr, after, happend]
          rfl
        rw [happend]
        exact .length (hcomplete.mpr hmem) hall hdeclared (hleft ▸ ⟨rfl, rfl⟩)
    · have hc' : (headOf (chunks ++ [s])).complete = false := by
        rw [← Bool.not_eq_true, hcomplete]
        exact hmem
      rw [hopen (hiff.mp hall) hmem]
      exact .head hc' hall
  · have hbad := mt hiff.mpr hall
    simp only [not_forall, exists_prop] at hbad
    obtain ⟨e, he⟩ := herror hbad
    rw [he]
    exact .line hall

/-- One more chunk. -/
theorem Outcome.append {r : Except (ParseError × HttpRequest) HttpRequest} (h : Outcome chunks r) (hr : feed chunks = r)
    (s : ByteString) : Outcome (chunks ++ [s]) (feed (chunks ++ [s])) := by
  rw [feed_concat, hr]
  have hread := headOf_concat chunks s
  cases h with
  | head hc hcolons => exact outcome_head hc hcolons hr s
  | @body n q hc hcolons hdeclared hholds =>
    have hsame : headOf (chunks ++ [s]) = headOf chunks := by rw [hread, Head.read_of_complete hc]
    obtain ⟨q', hq', hholds'⟩ := hholds.append hc s
    show Outcome (chunks ++ [s]) (HttpRequest.append q s)
    rw [hq']
    exact .body (hsame ▸ hc) (hsame ▸ hcolons) (hsame ▸ hdeclared) hholds'
  | line hcolons => exact .line fun hall => hcolons (Head.Colons.of_read (hread ▸ hall))
  | length hc hcolons hdeclared hbroken =>
    have hsame : headOf (chunks ++ [s]) = headOf chunks := by rw [hread, Head.read_of_complete hc]
    exact .length (hsame ▸ hc) (hsame ▸ hcolons) (hsame ▸ hdeclared) (feedAll_concat chunks s ▸ (hbroken.after s).1)

theorem feed_outcome (chunks : List ByteString) : Outcome chunks (feed chunks) := by
  induction chunks using List.reverseRecOn with
  | nil =>
    refine .head rfl ?_
    intro l hl
    cases hl
  | append_singleton chunks s ih => exact ih.append rfl s

end Body

end HttpRequest
end SimpleHttp
