import CppProgramming.SimpleHttp.HttpChunking

/-! # The grammar of requests

A well-formed request is a first line, header lines `name:value`, an empty line and a body as long as
the header `Content-Length` says. The parser takes such a request apart under every chunking: it reports
the request as received exactly when the last byte is in, and then holds its parts. -/

namespace SimpleHttp
namespace HttpRequest

/-- The header lines of a request, each with its line end. -/
def headerLines (hs : List (ByteString × ByteString)) : ByteString :=
  hs.flatMap fun h => h.1 ++ headerSep :: h.2 ++ lineEnd

/-- The bytes of a request. -/
def message (r : ByteString) (hs : List (ByteString × ByteString)) (b : ByteString) : ByteString :=
  r ++ lineEnd ++ (headerLines hs ++ lineEnd ++ b)

/-- The trimmed value of the last header with a name. -/
def lastValue (hs : List (ByteString × ByteString)) (name : ByteString) : Option ByteString :=
  (hs.reverse.find? fun h => h.1 = name).map fun h => trim h.2

/-- The requests of the grammar: lines without a line end inside, names without a colon, and at most one
    `Content-Length`, whose value is a numeral for the length of the body; without it the body is empty. -/
structure WellFormed (r : ByteString) (hs : List (ByteString × ByteString)) (b : ByteString) : Prop where
  nonempty : r ≠ []
  firstLine : ¬lineEnd <:+: r
  lines : ∀ h ∈ hs, ¬lineEnd <:+: h.1 ++ headerSep :: h.2
  names : ∀ h ∈ hs, headerSep ∉ h.1
  once : (hs.map Prod.fst).count contentLengthHeader ≤ 1
  numeral : ∀ h ∈ hs, h.1 = contentLengthHeader → ByteString.IsNumeral (trim h.2) b.length
  absent : contentLengthHeader ∉ hs.map Prod.fst → b = []
  bound : b.length ≤ 2 ^ 31 - 1

/-! ### Header lines -/

/-- The map that the header lines build. -/
def addHeaders (m : ByteString → Option ByteString) (hs : List (ByteString × ByteString)) :
    ByteString → Option ByteString :=
  hs.foldl (fun m h => Function.update m h.1 (some (trim h.2))) m

theorem addHeaders_append (m : ByteString → Option ByteString) (hs : List (ByteString × ByteString))
    (h : ByteString × ByteString) :
    addHeaders m (hs ++ [h]) = Function.update (addHeaders m hs) h.1 (some (trim h.2)) := by
  simp [addHeaders]

theorem addHeaders_eq_lastValue (hs : List (ByteString × ByteString)) :
    addHeaders (fun _ => none) hs = lastValue hs := by
  induction hs using List.reverseRecOn with
  | nil => rfl
  | append_singleton hs h ih =>
    rw [addHeaders_append, ih]
    funext name
    by_cases hn : h.1 = name
    · subst hn
      simp [lastValue]
    · rw [Function.update_of_ne (Ne.symm hn)]
      simp [lastValue, hn]

theorem find_headerSep {name value : ByteString} (hn : headerSep ∉ name) :
    ByteString.find [headerSep] (name ++ headerSep :: value) = some name.length := by
  induction name with
  | nil => exact ByteString.find_zero_iff.mpr (by simp)
  | cons x name ih =>
    simp only [List.mem_cons, not_or] at hn
    have hx : ¬[headerSep] <+: x :: (name ++ headerSep :: value) := by
      simp [List.cons_prefix_cons, hn.1]
    rw [List.cons_append, ByteString.find_cons_of_not_start hx, ih hn.2]
    rfl

theorem addHeader_line {q : HttpRequest} {name value : ByteString} (hn : headerSep ∉ name) :
    addHeader q (name ++ headerSep :: value) =
      .ok { q with headers := Function.update q.headers name (some (trim value)) } := by
  have hdrop : (name ++ headerSep :: value).drop (name.length + 1) = value := by
    rw [← List.drop_drop, List.drop_left, List.drop_one, List.tail_cons]
  rw [addHeader, find_headerSep hn]
  simp only [List.take_left, hdrop]

theorem setHeaders_line {q : HttpRequest} {name value rest : ByteString} (hn : headerSep ∉ name)
    (hline : ¬lineEnd <:+: name ++ headerSep :: value)
    (hbuf : q.buf = name ++ headerSep :: value ++ lineEnd ++ rest) :
    setHeaders q = setHeaders { q with
      headers := Function.update q.headers name (some (trim value))
      buf := rest } := by
  have hfind : ByteString.find lineEnd q.buf = some (name ++ headerSep :: value).length := by
    rw [hbuf]
    exact ByteString.find_pair_append (by decide) hline rest
  have htake : q.buf.take (name ++ headerSep :: value).length = name ++ headerSep :: value := by
    rw [hbuf, List.append_assoc, List.take_left]
  have hdrop : q.buf.drop ((name ++ headerSep :: value).length + 2) = rest := by
    have : (name ++ headerSep :: value).length + 2 = (name ++ headerSep :: value ++ lineEnd).length := by
      simp [Nat.add_assoc]
    rw [hbuf, this, List.drop_left]
  rw [setHeaders_of_find_pos hfind (by simp), htake, addHeader_line hn]
  show setHeaders { q with
    headers := Function.update q.headers name (some (trim value))
    buf := q.buf.drop ((name ++ headerSep :: value).length + 2) } = _
  rw [hdrop]

/-- A prefix of a line and what follows it: the line is not complete, or the prefix goes on behind it. -/
theorem prefix_line (line : ByteString) {rest p : ByteString} (hline : ¬lineEnd <:+: line) (hp : p <+: line ++ lineEnd ++ rest) :
    ByteString.find lineEnd p = none ∧ p.length < line.length + 2 ∨
      ∃ p', p = line ++ lineEnd ++ p' ∧ p' <+: rest := by
  by_cases hlen : p.length < line.length + 2
  · refine Or.inl ⟨ByteString.find_eq_none_iff.mpr ?_, hlen⟩
    refine ByteString.not_infix_of_prefix_line (by decide) hline ?_ hlen
    have hle : p.length ≤ (line ++ lineEnd).length := by
      rw [List.length_append, length_lineEnd]
      omega
    exact List.prefix_of_prefix_length_le hp (List.prefix_append _ _) hle
  · right
    have hpre : line ++ lineEnd <+: p := List.prefix_of_prefix_length_le (List.prefix_append _ _) hp
      (by rw [List.length_append, length_lineEnd]; omega)
    obtain ⟨p', rfl⟩ := hpre
    exact ⟨p', rfl, (List.prefix_append_right_inj _).mp hp⟩

/-- What `SetHeaders` makes of a prefix of header lines, empty line and body: the header block is not
    complete, or everything before the body has been taken out. -/
theorem setHeaders_prefix {q : HttpRequest} {hs : List (ByteString × ByteString)} {b p : ByteString}
    (hlines : ∀ h ∈ hs, ¬lineEnd <:+: h.1 ++ headerSep :: h.2) (hnames : ∀ h ∈ hs, headerSep ∉ h.1)
    (hbound : b.length ≤ 2 ^ 31 - 1)
    (hlen : ∀ v, addHeaders q.headers hs contentLengthHeader = some v → ByteString.IsNumeral v b.length)
    (hnone : addHeaders q.headers hs contentLengthHeader = none → b = [])
    (hq : q.headersParseComplete = false) (hbuf : q.buf = p) (hp : p <+: headerLines hs ++ lineEnd ++ b) :
    (∃ q', setHeaders q = .ok q' ∧ q'.headersParseComplete = false ∧
      p.length < (headerLines hs ++ lineEnd).length) ∨
    ∃ b', p = headerLines hs ++ lineEnd ++ b' ∧ setHeaders q = .ok { q with
      headers := addHeaders q.headers hs
      contentLength := b.length
      headersParseComplete := true
      buf := b' } := by
  induction hs generalizing q p with
  | nil =>
    subst hbuf
    rcases prefix_line [] (by decide) hp with ⟨hfind, hshort⟩ | ⟨b', hb', -⟩
    · exact Or.inl ⟨q, setHeaders_of_find_none hfind, hq, hshort⟩
    · refine Or.inr ⟨b', hb', ?_⟩
      have hfind : ByteString.find lineEnd q.buf = some 0 :=
        ByteString.find_zero_iff.mpr (hb' ▸ List.prefix_append _ _)
      have hdrop : q.buf.drop 2 = b' := by rw [hb']; rfl
      rw [setHeaders_of_find_zero hfind, hdrop, setContentLength]
      dsimp only
      cases hv : q.headers contentLengthHeader with
      | none =>
        have hb : b = [] := hnone hv
        subst hb
        rfl
      | some v =>
        have hstoi := ByteString.stoi_of_isNumeral (hlen v hv) hbound
        have hsize : toSizeT b.length = b.length := by
          unfold toSizeT
          omega
        simp only [hstoi, hsize]
        rfl
  | cons h hs ih =>
    have hp' : p <+: h.1 ++ headerSep :: h.2 ++ lineEnd ++ (headerLines hs ++ lineEnd ++ b) := by
      simpa [headerLines] using hp
    rcases prefix_line _ (hlines h List.mem_cons_self) hp' with ⟨hfind, hshort⟩ | ⟨p', rfl, hrest⟩
    · subst hbuf
      refine Or.inl ⟨q, setHeaders_of_find_none hfind, hq, ?_⟩
      simp only [headerLines, List.flatMap_cons, List.length_append, List.length_cons, length_lineEnd] at hshort ⊢
      omega
    · rw [setHeaders_line (hnames h List.mem_cons_self) (hlines h List.mem_cons_self) hbuf]
      rcases ih (q := { q with headers := Function.update q.headers h.1 (some (trim h.2)), buf := p' })
          (fun x hx => hlines x (List.mem_cons_of_mem _ hx)) (fun x hx => hnames x (List.mem_cons_of_mem _ hx))
          hlen hnone hq rfl hrest with ⟨q', hq', hc, hshort⟩ | ⟨b', rfl, hb'⟩
      · refine Or.inl ⟨q', hq', hc, ?_⟩
        simp only [headerLines, List.flatMap_cons, List.length_append, List.length_cons, length_lineEnd] at hshort ⊢
        omega
      · refine Or.inr ⟨b', ?_, hb'⟩
        simp [headerLines]

/-! ### The whole request -/

variable {r : ByteString} {hs : List (ByteString × ByteString)} {b : ByteString}

theorem lastValue_none (h : lastValue hs contentLengthHeader = none) : contentLengthHeader ∉ hs.map Prod.fst := by
  intro hmem
  obtain ⟨x, hx, hname⟩ := List.mem_map.mp hmem
  simp only [lastValue, Option.map_eq_none_iff, List.find?_eq_none, List.mem_reverse, decide_eq_true_eq] at h
  exact h x hx hname

theorem lastValue_some {name v : ByteString} (h : lastValue hs name = some v) : ∃ x ∈ hs, x.1 = name ∧ trim x.2 = v := by
  simp only [lastValue, Option.map_eq_some_iff] at h
  obtain ⟨x, hx, hv⟩ := h
  exact ⟨x, List.mem_reverse.mp (List.mem_of_find?_eq_some hx), by simpa using List.find?_some hx, hv⟩

theorem WellFormed.not_start (wf : WellFormed r hs b) {p : ByteString} (hp : p <+: message r hs b) : ¬lineEnd <+: p := by
  intro hstart
  -- A line end in front would be found at 0, but the first one of a request ends its first line.
  have hfind : ByteString.find lineEnd (message r hs b) = some r.length :=
    ByteString.find_pair_append (by decide) wf.firstLine _
  rw [ByteString.find_zero_iff.mpr (hstart.trans hp), Option.some.injEq] at hfind
  exact wf.nonempty (List.length_eq_zero_iff.mp hfind.symm)

theorem append_prefix (wf : WellFormed r hs b) {p : ByteString} (hp : p <+: message r hs b) :
    ∃ q, append {} p = .ok q ∧ (q.totalParseComplete = true ↔ p = message r hs b) ∧
      (p = message r hs b → q.firstLine = r ∧ q.headers = lastValue hs ∧ q.messageBody = b ∧
        q.contentLength = b.length) := by
  have hshort : ∀ q : HttpRequest, p.length < (message r hs b).length → q.totalParseComplete = false →
      (q.totalParseComplete = true ↔ p = message r hs b) ∧
      (p = message r hs b → q.firstLine = r ∧ q.headers = lastValue hs ∧ q.messageBody = b ∧
        q.contentLength = b.length) := by
    intro q hlt hopen
    have hne : p ≠ message r hs b := fun h => by
      rw [h] at hlt
      exact Nat.lt_irrefl _ hlt
    refine ⟨⟨fun h => ?_, fun h => absurd h hne⟩, fun h => absurd h hne⟩
    rw [hopen] at h
    cases h
  rw [append_of_head rfl rfl]
  rcases prefix_line r wf.firstLine hp with ⟨hfind, hlt⟩ | ⟨p', rfl, hp'⟩
  · -- The first line is not complete.
    have hhead : parseHead (addBuf {} p) = .ok (addBuf {} p) := parseHead_of_find_none hfind
    rw [hhead]
    refine ⟨addBuf {} p, rfl, hshort _ ?_ rfl⟩
    simp only [message, List.length_append, length_lineEnd]
    omega
  · have hfind : ByteString.find lineEnd (addBuf {} (r ++ lineEnd ++ p')).buf = some r.length :=
      ByteString.find_pair_append (by decide) wf.firstLine p'
    have hline : setFirstLine (addBuf {} (r ++ lineEnd ++ p')) = { firstLine := r, buf := p' } := by
      have hdrop : (r ++ lineEnd ++ p').drop (r.length + 2) = p' := by
        have : r.length + 2 = (r ++ lineEnd).length := by simp
        rw [this, List.drop_left]
      rw [setFirstLine_of_find_some rfl hfind]
      simp only [addBuf, List.nil_append, hdrop]
      rw [List.append_assoc, List.take_left]
    have hmap := addHeaders_eq_lastValue hs
    rcases setHeaders_prefix (q := { firstLine := r, buf := p' }) wf.lines wf.names wf.bound
        (fun v hv => by
          rw [hmap] at hv
          obtain ⟨x, hx, hname, rfl⟩ := lastValue_some hv
          exact wf.numeral x hx hname)
        (fun hv => wf.absent (lastValue_none (hmap ▸ hv))) rfl rfl hp' with
      ⟨q', hq', hc, hlt⟩ | ⟨b', rfl, hq'⟩
    · -- The header block is not complete.
      have hopen : q'.totalParseComplete = false := (setHeaders_frame hq').2
      refine ⟨parseMessageBody q', by rw [parseHead, hline, hq']; rfl, hshort _ ?_ ?_⟩
      · simp only [message, List.length_append, length_lineEnd] at hlt ⊢
        omega
      · simp [parseMessageBody, hc, hopen]
    · -- Only the body, or a prefix of it, is left.
      rw [List.prefix_append_right_inj] at hp'
      have hmsg : r ++ lineEnd ++ (headerLines hs ++ lineEnd ++ b') = message r hs b ↔ b' = b := by
        simp [message]
      refine ⟨{
        firstLine := r
        headers := lastValue hs
        contentLength := b.length
        messageBody := b'
        headersParseComplete := true
        totalParseComplete := decide (b'.length ≥ b.length) }, ?_, ?_, ?_⟩
      · rw [parseHead, hline, hq', ← hmap]
        rfl
      · rw [hmsg, decide_eq_true_iff]
        refine ⟨fun hge => hp'.eq_of_length_le hge, ?_⟩
        rintro rfl
        exact Nat.le_refl _
      · intro h
        exact ⟨rfl, rfl, hmsg.mp h, rfl⟩

/-- Under every chunking a well-formed request is parsed without an exception, is reported as received
    exactly when all of its bytes are in, and is taken apart into its first line, headers and body. -/
theorem feed_wellFormed (wf : WellFormed r hs b) {chunks : List ByteString} (hchunks : chunks.flatten = message r hs b) :
    (∀ k, ∃ q, feed (chunks.take k) = .ok q ∧
      (q.allReceived = true ↔ (chunks.take k).flatten = message r hs b)) ∧
    ∃ q, feed chunks = .ok q ∧ q.allReceived = true ∧ q.firstLine = r ∧ q.headers = lastValue hs ∧
      q.messageBody = b := by
  have hfeed : ∀ xs : List ByteString, xs.flatten <+: message r hs b → ∃ q, feed xs = .ok q ∧
      (q.allReceived = true ↔ xs.flatten = message r hs b) ∧
      (xs.flatten = message r hs b → q.firstLine = r ∧ q.headers = lastValue hs ∧ q.messageBody = b) := by
    intro xs hxs
    obtain ⟨whole, hwhole, hall, hparts⟩ := append_prefix wf hxs
    have hsame := feed_same xs (wf.not_start hxs)
    rw [hwhole] at hsame
    obtain ⟨q, hq, a⟩ := hsame.of_ok
    refine ⟨q, hq, by rw [allReceived, a.totalParseComplete]; exact hall, fun hmsg => ?_⟩
    obtain ⟨hfirst, hheaders, hbody, hlen⟩ := hparts hmsg
    refine ⟨a.firstLine.trans hfirst, a.headers.trans hheaders, ?_⟩
    -- The body has no byte beyond `contentLength`, so the two bodies are equal.
    have htake := a.body
    rw [a.contentLength, hlen, hbody, List.take_length] at htake
    have hle : b.length ≤ q.messageBody.length := by
      rw [← htake]
      exact List.length_take_le' _ _
    rw [← hbody]
    exact a.more.eq_of_length_le (hbody ▸ hle)
  constructor
  · intro k
    obtain ⟨q, hq, hall, -⟩ := hfeed (chunks.take k) (by
      rw [← hchunks, ← List.take_append_drop k chunks, List.flatten_append]
      simp)
    exact ⟨q, hq, hall⟩
  · obtain ⟨q, hq, hall, hparts⟩ := hfeed chunks (by rw [hchunks])
    exact ⟨q, hq, hall.mpr hchunks, hparts hchunks⟩

/-- `"a\r\nContent-Length: 2\r\n\r\nhi"`, cut inside the first line end and inside the body. -/
theorem feed_wellFormed_hi :
    let chunks : List ByteString :=
      [[97, 13], [10] ++ contentLengthHeader ++ [58, 32, 50, 13, 10, 13, 10, 104], [105]]
    (∀ k, ∃ q, feed (chunks.take k) = .ok q ∧
      (q.allReceived = true ↔
        (chunks.take k).flatten = message [97] [(contentLengthHeader, [32, 50])] [104, 105])) ∧
    ∃ q, feed chunks = .ok q ∧ q.allReceived = true ∧ q.firstLine = [97] ∧
      q.headers = lastValue [(contentLengthHeader, [32, 50])] ∧ q.messageBody = [104, 105] :=
  feed_wellFormed
    ⟨by decide, by decide, by decide, by decide, by decide, by decide, by decide, by decide⟩ (by decide)

end HttpRequest
end SimpleHttp
