import CppProgramming.SimpleHttp.RequestLine

/-! # Content-Length

The declared length is read with `std::stoi`, and the body ends with the chunk that reaches it. -/

namespace SimpleHttp
namespace HttpRequest

section ContentLength
variable {q q' : HttpRequest} {n : Nat} {v w : ByteString} {chunks other : List ByteString}

/-! ### Where the body ends -/

/-- The body is as long as `contentLength`, and it is what follows the blank line. -/
structure Delimited (chunks : List ByteString) (q : HttpRequest) : Prop where
  length : q.getMessageBody.length = q.contentLength
  bytes : q.getMessageBody = (chunks.flatten.drop (headOf chunks).length).take q.contentLength

/-- A chunk ends where the body ends, by the length that the header lines declare. -/
def CutAtEnd (chunks : List ByteString) : Prop :=
  ∃ n before, (headOf chunks).declared = .ok n ∧ before <+: chunks ∧ before.flatten.length = (headOf chunks).length + n

/-- What is known of an object that has received all. -/
theorem holds_of_allReceived (h : feed chunks = .ok q) (hall : q.allReceived = true) :
    ∃ n, (headOf chunks).complete = true ∧ (headOf chunks).Colons ∧ (headOf chunks).declared = .ok n ∧
      Holds chunks n q := by
  have houtcome := feed_outcome chunks
  rw [h] at houtcome
  cases houtcome with
  | head hc hcolons => cases hall
  | body hc hcolons hdeclared hholds => exact ⟨_, hc, hcolons, hdeclared, hholds⟩

/-- A complete head with a declared length causes no exception. -/
theorem feed_holds (hc : (headOf chunks).complete = true) (hcolons : (headOf chunks).Colons)
    (hdeclared : (headOf chunks).declared = .ok n) : ∃ q, feed chunks = .ok q ∧ Holds chunks n q := by
  obtain ⟨r, hr⟩ : ∃ r, feed chunks = r := ⟨_, rfl⟩
  have houtcome := feed_outcome chunks
  rw [hr] at houtcome ⊢
  cases houtcome with
  | head hc' _ => cases hc.symm.trans hc'
  | body _ _ hdeclared' hholds =>
    cases hdeclared.symm.trans hdeclared'
    exact ⟨_, rfl, hholds⟩
  | line hno => exact absurd hcolons hno
  | length _ _ herror _ => cases hdeclared.symm.trans herror

/-- Without a declared length the object that is left behind is broken. -/
theorem feed_broken {e : ByteString.StoiError} (hc : (headOf chunks).complete = true) (hcolons : (headOf chunks).Colons)
    (herror : (headOf chunks).declared = .error e) : (∃ e, feed chunks = .error e) ∧ Broken (feedAll chunks) := by
  obtain ⟨r, hr⟩ : ∃ r, feed chunks = r := ⟨_, rfl⟩
  have houtcome := feed_outcome chunks
  rw [hr] at houtcome ⊢
  cases houtcome with
  | head hc' _ => cases hc.symm.trans hc'
  | body _ _ hdeclared _ => cases herror.symm.trans hdeclared
  | line hno => exact absurd hcolons hno
  | length _ _ _ hbroken => exact ⟨⟨_, rfl⟩, hbroken⟩

theorem flatten_begin {before : List ByteString} (h : before <+: chunks) : before.flatten <+: chunks.flatten := by
  obtain ⟨rest, rfl⟩ := h
  rw [List.flatten_append]
  exact List.prefix_append ..

/-- The body is delimited if and only if a chunk ends with it. -/
theorem Holds.delimited_iff (h : Holds chunks n q) (hdeclared : (headOf chunks).declared = .ok n)
    (hall : q.allReceived = true) : Delimited chunks q ↔ CutAtEnd chunks := by
  obtain ⟨upto, hupto, hbody, hle, hfirst, htotal, -⟩ := h.body
  have hreached := htotal.mp hall
  have hlength : q.getMessageBody.length + (headOf chunks).length = upto.flatten.length := by
    rw [getMessageBody, hbody, List.length_drop]
    omega
  have hcontent := h.contentLength
  constructor
  · intro hd
    refine ⟨n, upto, hdeclared, hupto, ?_⟩
    have := hd.length
    omega
  · rintro ⟨n', before, hn', hbefore, hend⟩
    cases hdeclared.symm.trans hn'
    have hcut : upto.flatten.length = (headOf chunks).length + n := by
      rcases List.prefix_or_prefix_of_prefix hbefore hupto with hshort | hlong
      · by_cases heq : before = upto
        · rw [← heq, hend]
        · have hless := hfirst before hshort heq
          omega
      · have hmore := (flatten_begin hlong).length_le
        omega
    have htake : upto.flatten = chunks.flatten.take ((headOf chunks).length + n) := by
      rw [← hcut]
      exact List.prefix_iff_eq_take.mp (flatten_begin hupto)
    refine ⟨by omega, ?_⟩
    rw [getMessageBody, hbody, htake, hcontent, List.drop_take, Nat.add_sub_cancel_left]

/-- All chunkings of a stream have one head, unless it begins with an empty line. -/
theorem headOf_congr (hstart : ¬lineEnd <+: chunks.flatten) (hflat : other.flatten = chunks.flatten) :
    headOf other = headOf chunks := by
  rw [headOf_eq (not_retakes hstart), headOf_eq (not_retakes (hflat ▸ hstart)), hflat]

/-- The request is complete as soon as the stream is long enough. -/
theorem Holds.allReceived_iff (h : Holds chunks n q) :
    q.allReceived = true ↔ (headOf chunks).length + n ≤ chunks.flatten.length := by
  obtain ⟨upto, hupto, -, -, -, htotal, hopen⟩ := h.body
  constructor
  · intro hall
    exact (htotal.mp hall).trans (flatten_begin hupto).length_le
  · intro hle
    rw [allReceived]
    by_contra hno
    have hupto' := hopen (Bool.eq_false_of_not_eq_true hno)
    exact hno (htotal.mpr (hupto' ▸ hle))

/-- In one chunk the body is all that follows the blank line. -/
theorem CutAtEnd.of_singleton {w : ByteString} (h : CutAtEnd [w]) (hdeclared : (headOf [w]).declared = .ok n)
    (hpos : 0 < (headOf [w]).length) : w.length = (headOf [w]).length + n := by
  obtain ⟨n', before, hn', hbefore, hend⟩ := h
  cases hdeclared.symm.trans hn'
  rcases List.prefix_cons_iff.mp hbefore with rfl | ⟨rest, rfl, hrest⟩
  · rw [List.flatten_nil, List.length_nil] at hend
    omega
  · rw [List.prefix_nil.mp hrest, List.flatten_singleton] at hend
    exact hend

theorem headOf_length_pos (hc : (headOf [w]).complete = true) : 0 < (headOf [w]).length := by
  obtain ⟨ls, rest, hw⟩ : ∃ ls rest, splitLines w = (ls, rest) := ⟨_, _, rfl⟩
  rcases ls with - | ⟨l, ls⟩
  · rw [headOf_of_nil hw] at hc
    cases hc
  · obtain ⟨hblank, hopen⟩ := headOf_of_cons hw
    by_cases hmem : [] ∈ ls
    · rw [hblank hmem]
      exact Nat.add_pos_left (Nat.succ_pos _) _
    · rw [hopen hmem] at hc
      cases hc

/-- Once a request is complete, its body is delimited by the declared length if and only if one of the chunks ends with
    it. For a stream that does not begin with an empty line this is so under all chunkings, and with one body, if and
    only if nothing follows the body. -/
theorem body_delimited_iff (chunks : List ByteString) (q : HttpRequest) (h : feed chunks = .ok q)
    (hall : q.allReceived = true) :
    (Delimited chunks q ↔ CutAtEnd chunks) ∧
    (¬lineEnd <+: chunks.flatten →
      ((∀ other q', other.flatten = chunks.flatten → feed other = .ok q' → q'.allReceived = true →
          Delimited other q' ∧ q'.getMessageBody = q.getMessageBody) ↔
        ∃ n, (headOf chunks).declared = .ok n ∧ chunks.flatten.length = (headOf chunks).length + n)) := by
  obtain ⟨n, hc, hcolons, hdeclared, hholds⟩ := holds_of_allReceived h hall
  refine ⟨hholds.delimited_iff hdeclared hall, fun hstart => ?_⟩
  constructor
  · intro hevery
    have hflat : [chunks.flatten].flatten = chunks.flatten := List.flatten_singleton
    have hhead := headOf_congr hstart hflat
    have hn : (headOf [chunks.flatten]).declared = .ok n := hhead ▸ hdeclared
    obtain ⟨q', hq', hholds'⟩ := feed_holds (hhead ▸ hc) (hhead ▸ hcolons) hn
    have hall' : q'.allReceived = true := by
      rw [hholds'.allReceived_iff, hhead, hflat]
      exact hholds.allReceived_iff.mp hall
    obtain ⟨hd, -⟩ := hevery [chunks.flatten] q' hflat hq' hall'
    have hend := ((hholds'.delimited_iff hn hall').mp hd).of_singleton hn (headOf_length_pos (hhead ▸ hc))
    exact ⟨n, hdeclared, hhead ▸ hend⟩
  · rintro ⟨n', hn', hend⟩ other q' hflat hq' hall'
    cases hdeclared.symm.trans hn'
    have hhead := headOf_congr hstart hflat
    obtain ⟨n', -, -, hn', hholds'⟩ := holds_of_allReceived hq' hall'
    cases hdeclared.symm.trans (hhead ▸ hn')
    have hcut : CutAtEnd chunks := ⟨n, chunks, hdeclared, List.prefix_rfl, hend⟩
    have hcut' : CutAtEnd other := ⟨n, other, hn', List.prefix_rfl, by rw [hflat, hhead, hend]⟩
    have hd := (hholds.delimited_iff hdeclared hall).mpr hcut
    have hd' := (hholds'.delimited_iff hn' hall').mpr hcut'
    refine ⟨hd', ?_⟩
    rw [hd.bytes, hd'.bytes, hflat, hhead, hholds.contentLength, hholds'.contentLength]

/-- `"G\r\nContent-Length:1\r\n\r\n"` and `"a"`. -/
theorem body_delimited_iff_cut : ∃ q,
    feed [message [71] [(contentLengthHeader, [49])] [], [97]] = .ok q ∧ q.allReceived = true ∧
      Delimited [message [71] [(contentLengthHeader, [49])] [], [97]] q := by
  refine ⟨_, rfl, by decide, ?_⟩
  refine (body_delimited_iff [message [71] [(contentLengthHeader, [49])] [], [97]] _ rfl (by decide)).1.mpr ?_
  exact ⟨1, _, by decide, List.prefix_rfl, by decide⟩

/-- With the next request in the same chunk as the body, the body has bytes of it; in a chunk of its own it is dropped. -/
theorem body_not_delimited :
    (∃ q, feed [message [71] [(contentLengthHeader, [49])] [97, 71]] = .ok q ∧ q.allReceived = true ∧
      q.contentLength = 1 ∧ q.getMessageBody = [97, 71]) ∧
    ∃ q, feed [message [71] [(contentLengthHeader, [49])] [97], [71]] = .ok q ∧ q.allReceived = true ∧
      q.getMessageBody = [97] :=
  ⟨⟨_, rfl, by decide, by decide, by decide⟩, ⟨_, rfl, by decide, by decide⟩⟩

/-! ### Which values are a length -/

/-- What a request with the trimmed value `v` of `Content-Length` has to do, with these chunks: a numeral below `2 ^ 64`
    is the length of the body, and with any other value `Append` throws and the request is never complete. -/
structure Interprets (chunks : List ByteString) (v : ByteString) : Prop where
  numeral : ∀ n < 2 ^ 64, ByteString.IsNumeral v n → ∃ q, feed chunks = .ok q ∧ q.contentLength = n ∧
    (q.allReceived = true ↔ n ≤ chunks.flatten.length - (headOf chunks).length)
  other : (¬∃ n < 2 ^ 64, ByteString.IsNumeral v n) →
    (∃ e, feed chunks = .error e) ∧ ∀ more, (feedAll (chunks ++ more)).allReceived = false

theorem declared_of_value (hv : lastValue ((headOf chunks).lines.map lineHeader) contentLengthHeader = some v) :
    (headOf chunks).declared = (ByteString.stoi v).map toSizeT := by
  rw [Head.declared, hv]

/-- The value of `Content-Length` in a complete head is interpreted as it should be if and only if it is a decimal numeral
    that fits into an `int`. -/
theorem content_length_iff (chunks : List ByteString) (v : ByteString) (hc : (headOf chunks).complete = true)
    (hcolons : (headOf chunks).Colons)
    (hv : lastValue ((headOf chunks).lines.map lineHeader) contentLengthHeader = some v) :
    Interprets chunks v ↔ ∃ n ≤ 2 ^ 31 - 1, ByteString.IsNumeral v n := by
  have hvalue := declared_of_value hv
  constructor
  · intro hinterprets
    by_cases hnumeral : ∃ n < 2 ^ 64, ByteString.IsNumeral v n
    · obtain ⟨n, hn, hnum⟩ := hnumeral
      obtain ⟨q, hq, -, -⟩ := hinterprets.numeral n hn hnum
      refine ⟨n, ?_, hnum⟩
      by_contra hlarge
      rw [ByteString.stoi_isNumeral hnum, if_pos (Nat.not_le.mp hlarge)] at hvalue
      obtain ⟨⟨e, he⟩, -⟩ := feed_broken hc hcolons hvalue
      cases hq.symm.trans he
    · obtain ⟨⟨e, he⟩, hnever⟩ := hinterprets.other hnumeral
      cases hstoi : ByteString.stoi v with
      | ok m =>
        rw [hstoi] at hvalue
        obtain ⟨q, hq, -⟩ := feed_holds hc hcolons hvalue
        cases hq.symm.trans he
      | error error =>
        -- The next call of `Append`, with any bytes, completes the request.
        rw [hstoi] at hvalue
        obtain ⟨-, hbroken⟩ := feed_broken hc hcolons hvalue
        have hnext := hnever [[]]
        rw [feedAll_concat, (hbroken.after []).2] at hnext
        cases hnext
  · rintro ⟨n, hn, hnum⟩
    have hsize : toSizeT n = n := by
      unfold toSizeT
      omega
    rw [ByteString.stoi_of_isNumeral hnum hn, Except.map, hsize] at hvalue
    refine ⟨fun n' hn' hnum' => ?_, fun hno => ?_⟩
    · obtain ⟨q, hq, hholds⟩ := feed_holds hc hcolons hvalue
      have heq : n' = n := hnum'.2.2.symm.trans hnum.2.2
      have hle := (headOf_length chunks).1
      refine ⟨q, hq, hholds.contentLength.trans heq.symm, hholds.allReceived_iff.trans ?_⟩
      omega
    · exact absurd ⟨n, by omega, hnum⟩ hno

/-- `"Content-Length:1"`. -/
theorem content_length_iff_one : Interprets [message [71] [(contentLengthHeader, [49])] [97]] [49] :=
  (content_length_iff [message [71] [(contentLengthHeader, [49])] [97]] [49] (by decide)
    (fun l hl => by rw [List.mem_singleton.mp (show l ∈ [contentLengthHeader ++ [58, 49]] from hl)]; decide)
    (by decide)).mpr ⟨1, by decide, by decide⟩

/-- The value `-1` is taken for `2 ^ 64 - 1`, and behind the exception for the value `x` an empty chunk completes the
    request; so it does for `2147483648`. -/
theorem content_length_misread :
    (∃ q, feed [message [71] [(contentLengthHeader, [45, 49])] []] = .ok q ∧ q.contentLength = 2 ^ 64 - 1) ∧
    (∃ e, feed [message [71] [(contentLengthHeader, [120])] []] = .error e) ∧
    (feedAll [message [71] [(contentLengthHeader, [120])] [], []]).allReceived = true ∧
    (∃ e, feed [message [71] [(contentLengthHeader, [50, 49, 52, 55, 52, 56, 51, 54, 52, 56])] []] = .error e) := by
  refine ⟨⟨_, rfl, by decide⟩, ⟨_, rfl⟩, by decide, ⟨_, rfl⟩⟩

end ContentLength

end HttpRequest
end SimpleHttp
