import CppProgramming.SimpleHttp.Closing

/-! # The end of the input

`SocketHandler::Read` stops at the end of the peer's data as it stops when there is no data for now: it returns the
bytes that it has, and the end of the input is forgotten. Here one call of `Connection::Read` is followed from the
`read()` that returned 0 to its return, with all other threads running in between. -/

namespace SimpleHttp
open Interleaving

/-- The runs up to the return of the function that thread `i` has called with `rest` behind it on its stack. -/
def untilReturn {R : RequestHandler} (i : Nat) (rest : List (Frame R)) : Rule (Shared R) (Thread R) (Act R) Call where
  step s _ _ := ∀ t, s.threads[i]? = some t → t.frames ≠ rest
  call _ := True

/-- The function that thread `i` has called with `rest` behind it has just returned. -/
def ReturnedTo {R : RequestHandler} (s : State R) (i : Nat) (rest : List (Frame R)) : Prop :=
  ∃ t, s.threads[i]? = some t ∧ t.frames = rest

/-- `read()` returns 0 to thread `i`, and whatever the other threads do: when the `Read()` around it returns, the
    connection has been closed or a response for it is pending. -/
def NoticesEof (s : State httpRequestHandler) (i : Nat) (t : Thread httpRequestHandler) (c : ConnId)
    (rest : List (Frame httpRequestHandler)) : Prop :=
  ∀ a t' s', t.step s.shared .eof = some (a, t') →
    Reach (manager httpRequestHandler) (untilReturn i rest) ⟨a.apply s.shared, s.threads.set i t'⟩ s' →
    ReturnedTo s' i rest → (s'.shared.conn c).isClosed = true ∨ s'.shared.writeWaiting c = true

/-- The handler of a connection, and the request in it. -/
def Connection.http (x : Connection httpRequestHandler) : HttpRequestHandler.State := x.handler

/-- The request that the connection reads. -/
def Connection.httpRequest (x : Connection httpRequestHandler) : HttpRequest := x.http.httpRequest

/-- The connection has been closed, or is not waited for any more, or what is asked of its request holds. -/
def Connection.Done (x : Connection httpRequestHandler) (p : HttpRequest → Prop) : Prop :=
  x.isClosed = true ∨ x.http.isReadWaiting = false ∨ p x.httpRequest

/-- What the bytes complete: `Append` throws on them or has the whole request with them. -/
def HttpRequest.CompletedBy (q : HttpRequest) (received : ByteString) : Prop :=
  ∀ q', q.append received = .ok q' → q'.allReceived = true

/-! ### One call of `Read()` -/

/-- Where a thread is between the end of `SocketHandler::Read` and the return of `Read()`, with what is known about the
    connection there. -/
inductive Reading (x : Connection httpRequestHandler) (c : ConnId) (received : ByteString)
    (rest : List (Frame httpRequestHandler)) : Thread httpRequestHandler → Prop
  | append {v : Bool} : x.Done (·.CompletedBy received) →
      Reading x c received rest
        ⟨.callback c (HttpRequestHandler.Pc.append received) :: .read c .integrity :: rest, v⟩
  | integrity {v : Bool} : x.Done (·.allReceived = true) → Reading x c received rest ⟨.read c .integrity :: rest, v⟩
  | check {v : Bool} : x.Done (·.allReceived = true) →
      Reading x c received rest ⟨.callback c HttpRequestHandler.Pc.integrity :: .read c .complete :: rest, v⟩
  | complete {v : Bool} : x.Done (fun _ => v = true) → Reading x c received rest ⟨.read c .complete :: rest, v⟩
  | callback {pre : List (Frame httpRequestHandler)} {v : Bool} :
      x.Done (fun _ => pre = [.callback c HttpRequestHandler.Pc.readComplete] ∨
        pre = [.callback c HttpRequestHandler.Pc.clearRead]) →
      Reading x c received rest ⟨pre ++ .finish .read c .readWaiting :: rest, v⟩
  | finish {v : Bool} : Reading x c received rest ⟨.finish .read c .writeWaiting :: rest, v⟩
  | close {p : ClosePc} {v : Bool} : Reading x c received rest ⟨.close c p :: rest, v⟩
  | returned {v : Bool} : x.isClosed = true ∨ x.http.isWriteWaiting = true →
      Reading x c received rest ⟨rest, v⟩

theorem Reading.readComplete {x : Connection httpRequestHandler} {c : ConnId} {received : ByteString}
    {rest : List (Frame httpRequestHandler)} {v : Bool} : Reading x c received rest
      ⟨.callback c HttpRequestHandler.Pc.readComplete :: .finish .read c .readWaiting :: rest, v⟩ :=
  @Reading.callback x c received rest [_] v (.inr (.inr (.inl rfl)))

theorem Reading.incomplete {x : Connection httpRequestHandler} {c : ConnId} {received : ByteString}
    {rest : List (Frame httpRequestHandler)} {v : Bool} (h : x.isClosed = true ∨ x.http.isReadWaiting = false) :
    Reading x c received rest ⟨.finish .read c .readWaiting :: rest, v⟩ :=
  @Reading.callback x c received rest [] v (h.imp id .inl)

section Callbacks
variable {s : Shared httpRequestHandler} {c : ConnId} {received : ByteString}

theorem callback_append_ok {q : HttpRequest} (h : (s.conn c).httpRequest.append received = .ok q) :
    callback s c (HttpRequestHandler.Pc.append received) =
      some (.setHandler c { (s.conn c).http with httpRequest := q }, .ret false) := by
  have hexec : httpRequestHandler.exec (s.conn c).handler (HttpRequestHandler.Pc.append received) =
      .ret { (s.conn c).http with httpRequest := q } false := by
    show HttpRequestHandler.exec (s.conn c).http (.append received) = _
    have h' : (s.conn c).http.httpRequest.append received = _ := h
    simp only [HttpRequestHandler.exec, h']
    rfl
  unfold callback
  rw [hexec]

theorem callback_append_error {e : ParseError × HttpRequest} (h : (s.conn c).httpRequest.append received = .error e) :
    callback s c (HttpRequestHandler.Pc.append received) = some (.look, .throw) := by
  have hexec : httpRequestHandler.exec (s.conn c).handler (HttpRequestHandler.Pc.append received) = .throw := by
    show HttpRequestHandler.exec (s.conn c).http (.append received) = _
    have h' : (s.conn c).http.httpRequest.append received = _ := h
    simp only [HttpRequestHandler.exec, h']
    rfl
  unfold callback
  rw [hexec]

theorem callback_integrity : callback s c HttpRequestHandler.Pc.integrity =
    some (.setHandler c (s.conn c).http, .ret (s.conn c).httpRequest.allReceived) := rfl

end Callbacks

theorem Thread.step_ret {R : RequestHandler} {s : Shared R} {c : ConnId} {p : R.Pc} {rest : List (Frame R)}
    {v w : Bool} {a : Act R} {o : Choice} (h : callback s c p = some (a, .ret w)) :
    Thread.step s ⟨.callback c p :: rest, v⟩ o = some (a, ⟨rest, w⟩) := by
  simp only [Thread.step, Frame.step, h]

theorem step_finish {R : RequestHandler} {s : Shared R} {d : Side} {c : ConnId} {rest : List (Frame R)} {v : Bool} {o : Choice}
    (h : s.readWaiting c = true) :
    Thread.step s ⟨.finish d c .readWaiting :: rest, v⟩ o = some (.look, ⟨rest, v⟩) := by
  have h' : R.isReadWaiting (s.conn c).handler = true := h
  simp only [Thread.step, Frame.step, SimpleHttp.finish, if_pos h', List.nil_append]

@[simp]
theorem setHandler_http (s : Shared httpRequestHandler) (c : ConnId) (h : HttpRequestHandler.State) :
    (((Act.setHandler (R := httpRequestHandler) c h).apply s).conn c).http = h := by
  simp [Connection.http]

theorem isClosed_kept {R : RequestHandler} {s : Shared R} {a : Act R} {c : ConnId} (h : (s.conn c).isClosed = true) :
    ((a.apply s).conn c).isClosed = true := by
  cases a with
  | setClosed c' => by_cases hc : c' = c <;> simp [hc, h]
  | _ => simpa using h

section Own
variable {s : Shared httpRequestHandler} {c : ConnId} {received : ByteString} {rest : List (Frame httpRequestHandler)}
  {t t' : Thread httpRequestHandler} {o : Choice} {a : Act httpRequestHandler}

theorem Reading.step_append {v : Bool} (hdone : (s.conn c).Done (·.CompletedBy received))
    (h : Thread.step s ⟨.callback c (HttpRequestHandler.Pc.append received) :: .read c .integrity :: rest, v⟩ o =
      some (a, t')) : Reading ((a.apply s).conn c) c received rest t' := by
  cases happ : (s.conn c).httpRequest.append received with
  | error e =>
    simp only [Thread.step, Frame.step, callback_append_error happ] at h
    cases h
    exact .append hdone
  | ok q =>
    simp only [Thread.step, Frame.step, callback_append_ok happ] at h
    cases h
    refine .integrity ?_
    rcases hdone with hclosed | hread | hcomplete
    · exact .inl (by simpa using hclosed)
    · exact .inr (.inl (by simpa using hread))
    · exact .inr (.inr (by simpa [Connection.httpRequest] using hcomplete q happ))

theorem Reading.step_check {v : Bool} (hdone : (s.conn c).Done (·.allReceived = true))
    (h : Thread.step s ⟨.callback c HttpRequestHandler.Pc.integrity :: .read c .complete :: rest, v⟩ o =
      some (a, t')) : Reading ((a.apply s).conn c) c received rest t' := by
  simp only [Thread.step, Frame.step, callback_integrity] at h
  cases h
  refine .complete ?_
  rcases hdone with hclosed | hread | hcomplete
  · exact .inl (by simpa using hclosed)
  · exact .inr (.inl (by simpa using hread))
  · exact .inr (.inr hcomplete)

/-- The callback clears `isReadWaiting` on its way. -/
theorem Reading.step_callback {f : Frame httpRequestHandler} {pre fs : List (Frame httpRequestHandler)} {result v : Bool}
    (hdone : (s.conn c).Done fun _ => f :: pre = [.callback c HttpRequestHandler.Pc.readComplete] ∨
      f :: pre = [.callback c HttpRequestHandler.Pc.clearRead]) (hf : FrameStep s result f a fs) :
    Reading ((a.apply s).conn c) c received rest ⟨fs ++ (pre ++ .finish .read c .readWaiting :: rest), v⟩ := by
  rw [← List.append_assoc]
  refine .callback ?_
  rcases hdone with hclosed | hread | hpre
  · exact .inl (isClosed_kept hclosed)
  · exact .inr (.inl (hf.readWaiting_false hread))
  · rcases hpre with hpre | hpre
    · obtain ⟨rfl, rfl⟩ := List.cons_eq_cons.mp hpre
      obtain ⟨h', r, w, rfl, hr, -, hstep⟩ := callback_http hf
      cases hstep with
      | readFirst => exact .inr (.inr (.inr rfl))
      | readAgain hread => exact .inr (.inl (hf.readWaiting_false hread))
    · obtain ⟨rfl, rfl⟩ := List.cons_eq_cons.mp hpre
      obtain ⟨h', r, w, rfl, hr, -, hstep⟩ := callback_http hf
      cases hstep with
      | clearRead =>
        exact .inr (.inl ((congrArg HttpRequestHandler.State.isReadWaiting (setHandler_http s c h')).trans hr))

/-- `Read()` returns with the connection waiting only if it has been closed meanwhile. -/
theorem Reading.step_finish {v : Bool} (hdone : (s.conn c).isClosed = true ∨ (s.conn c).http.isReadWaiting = false)
    (hs : Thread.step s ⟨.finish .read c .readWaiting :: rest, v⟩ o = some (a, t')) :
    Reading ((a.apply s).conn c) c received rest t' := by
  by_cases hread : s.readWaiting c = true
  · rw [SimpleHttp.step_finish hread] at hs
    cases hs
    rcases hdone with hclosed | hnot
    · exact .returned (.inl hclosed)
    · exact absurd (hread.symm.trans hnot) (by decide)
  · have hread : ¬httpRequestHandler.isReadWaiting (s.conn c).handler = true := hread
    simp only [Thread.step, Frame.step, SimpleHttp.finish, if_neg hread] at hs
    cases hs
    exact .finish

theorem Reading.own (h : Reading (s.conn c) c received rest t) (hs : t.step s o = some (a, t')) (hne : t.frames ≠ rest)
    (hforeign : .foreign ∉ t.frames) : Reading ((a.apply s).conn c) c received rest t' := by
  cases h with
  | append hdone => exact .step_append hdone hs
  | integrity hdone =>
    simp only [Thread.step, Frame.step, read] at hs
    cases hs
    exact .check hdone
  | check hdone => exact .step_check hdone hs
  | @complete v hdone =>
    cases v with
    | true =>
      simp only [Thread.step, Frame.step, read, if_true] at hs
      cases hs
      exact .readComplete
    | false =>
      simp only [Thread.step, Frame.step, read] at hs
      cases hs
      refine .incomplete ?_
      rcases hdone with hclosed | hread | hv
      · exact .inl hclosed
      · exact .inr hread
      · cases hv
  | @callback pre v hdone =>
    cases pre with
    | nil =>
      rcases hdone with hclosed | hread | hpre
      · exact .step_finish (.inl hclosed) hs
      · exact .step_finish (.inr hread) hs
      · simp at hpre
    | cons f pre =>
      cases Thread.step_cases hs with
      | frame ht hf =>
        obtain ⟨rfl, rfl⟩ := List.cons_eq_cons.mp ht
        exact .step_callback hdone hf
      | crash => exact .callback hdone
      | caught ht => exact absurd (ht ▸ by simp) hforeign
  | finish =>
    simp only [Thread.step, Frame.step, SimpleHttp.finish] at hs
    by_cases hwrite : httpRequestHandler.isWriteWaiting (s.conn c).handler = true
    · rw [if_pos hwrite] at hs
      cases hs
      exact .returned (.inr hwrite)
    · rw [if_neg hwrite] at hs
      cases hs
      exact .close
  | @close p v =>
    cases Thread.step_cases hs with
    | frame ht hf =>
      obtain ⟨rfl, rfl⟩ := List.cons_eq_cons.mp ht
      cases hf with
      | closeSetClosed => exact .returned (.inl (by simp))
      | _ => exact .close
    | crash => exact .close
    | caught ht => cases ht
  | returned => exact absurd rfl hne

end Own

/-! ### The other threads -/

theorem exec_httpRequest {h h' : HttpRequestHandler.State} {p : HttpRequestHandler.Pc} (hp : ∀ received, p ≠ .append received)
    (he : (∃ v, HttpRequestHandler.exec h p = .ret h' v) ∨ (∃ p', HttpRequestHandler.exec h p = .goto h' p') ∨
      ∃ content p', HttpRequestHandler.exec h p = .write h' content p') : h'.httpRequest = h.httpRequest := by
  cases p with
  | append received => exact absurd rfl (hp received)
  | readComplete =>
    cases hr : h.isReadWaiting <;> simp only [HttpRequestHandler.exec, hr] at he <;> simp at he <;> rw [he]
  | writeComplete =>
    cases hw : h.isWriteWaiting <;> simp only [HttpRequestHandler.exec, hw] at he <;> simp at he <;> rw [he]
  | _ =>
    simp [HttpRequestHandler.exec] at he
    rw [← he]

/-- Nothing but `AppendReceivedData` changes the request. -/
theorem FrameStep.httpRequest {s : Shared httpRequestHandler} {result : Bool} {f : Frame httpRequestHandler}
    {a : Act httpRequestHandler} {fs : List (Frame httpRequestHandler)} (h : FrameStep s result f a fs) {c : ConnId}
    (hf : ∀ received, f ≠ .callback c (HttpRequestHandler.Pc.append received)) :
    ((a.apply s).conn c).httpRequest = (s.conn c).httpRequest := by
  have hset : ∀ c' p (h' : HttpRequestHandler.State), f = .callback c' p → a = .setHandler c' h' →
      (c' = c → h'.httpRequest = (s.conn c).httpRequest) → ((a.apply s).conn c).httpRequest = (s.conn c).httpRequest := by
    rintro c' p h' - rfl hreq
    by_cases hc : c' = c
    · subst hc
      exact (congrArg HttpRequestHandler.State.httpRequest (setHandler_http s c' h')).trans (hreq rfl)
    · simp [Connection.httpRequest, Connection.http, hc]
  cases h with
  | @callbackRet c' p h' v he =>
    refine hset c' p h' rfl rfl ?_
    rintro rfl
    exact exec_httpRequest (fun received hp => hf received (hp ▸ rfl)) (.inl ⟨v, he⟩)
  | @callbackGoto c' p h' p' he =>
    refine hset c' p h' rfl rfl ?_
    rintro rfl
    exact exec_httpRequest (fun received hp => hf received (hp ▸ rfl)) (.inr (.inl ⟨p', he⟩))
  | @callbackWrite c' p h' content p' he =>
    refine hset c' p h' rfl rfl ?_
    rintro rfl
    exact exec_httpRequest (fun received hp => hf received (hp ▸ rfl)) (.inr (.inr ⟨content, p', he⟩))
  | _ => simp [Connection.httpRequest, Connection.http]

theorem Connection.Done.kept {x y : Connection httpRequestHandler} {p : HttpRequest → Prop} (h : x.Done p)
    (hclosed : x.isClosed = true → y.isClosed = true)
    (hread : x.http.isReadWaiting = false → y.http.isReadWaiting = false) (hreq : y.httpRequest = x.httpRequest) :
    y.Done p := by
  rcases h with h | h | h
  · exact .inl (hclosed h)
  · exact .inr (.inl (hread h))
  · exact .inr (.inr (hreq ▸ h))

theorem Reading.other {s : Shared httpRequestHandler} {result : Bool} {f : Frame httpRequestHandler}
    {a : Act httpRequestHandler} {fs rest : List (Frame httpRequestHandler)} {c : ConnId} {received : ByteString}
    {t : Thread httpRequestHandler} (h : Reading (s.conn c) c received rest t) (hf : FrameStep s result f a fs)
    (hno : ∀ received, f ≠ .callback c (HttpRequestHandler.Pc.append received)) (hne : t.frames ≠ rest) :
    Reading ((a.apply s).conn c) c received rest t := by
  have hkept : ∀ {p : HttpRequest → Prop}, (s.conn c).Done p → ((a.apply s).conn c).Done p := fun hdone =>
    hdone.kept isClosed_kept hf.readWaiting_false (hf.httpRequest hno)
  cases h with
  | append hdone => exact .append (hkept hdone)
  | integrity hdone => exact .integrity (hkept hdone)
  | check hdone => exact .check (hkept hdone)
  | complete hdone => exact .complete (hkept hdone)
  | callback hdone => exact .callback (hkept hdone)
  | finish => exact .finish
  | close => exact .close
  | returned => exact absurd rfl hne

/-! ### Runs up to the return -/

theorem Reading.mem {x : Connection httpRequestHandler} {c : ConnId} {received : ByteString}
    {rest : List (Frame httpRequestHandler)} {t : Thread httpRequestHandler} (h : Reading x c received rest t)
    {f : Frame httpRequestHandler} (hf : f ∈ rest) : f ∈ t.frames := by
  cases h <;> simp [hf]

section Run
variable {closed : Bool} {readers writers : Nat} {s s' : State httpRequestHandler} {i : Nat} {c : ConnId}
  {received : ByteString} {rest : List (Frame httpRequestHandler)}

/-- The worker that reads `c` is the only one that hands bytes to its handler. -/
theorem append_unique (h : Reachable httpRequestHandler closed readers writers s) {j : Nat} (hi : s.At i (.recheck .read c .lock))
    (hj : s.At j (.callback c (HttpRequestHandler.Pc.append received))) : j = i :=
  thread_of_holds h (companion_owner.at_of_at h hj ⟨.read, c, rfl, rfl⟩) hi

theorem reading_run (h : Reachable httpRequestHandler closed readers writers s)
    (hr : Reach (manager httpRequestHandler) (untilReturn i rest) s s') (hrest : .recheck .read c .lock ∈ rest)
    (hread : ∃ t, s.threads[i]? = some t ∧ Reading (s.shared.conn c) c received rest t) :
    ∃ t, s'.threads[i]? = some t ∧ Reading (s'.shared.conn c) c received rest t := by
  induction hr with
  | start => exact hread
  | @run s' j o u u' a hr' hh hj hs hne ih =>
    obtain ⟨t, hi, ht⟩ := ih
    have hreach : Reachable httpRequestHandler closed readers writers s' := h.trans hr'.any
    obtain ⟨hlt, -⟩ := List.getElem?_eq_some_iff.mp hi
    by_cases hij : j = i
    · subst hij
      cases hj.symm.trans hi
      refine ⟨u', by simp [hlt], ?_⟩
      exact ht.own hs (hne _ hi) (not_foreign rfl hreach _ (List.mem_of_getElem? hi))
    · refine ⟨t, by simpa [List.getElem?_set, hij] using hi, ?_⟩
      cases Thread.step_cases hs with
      | frame hframes hf =>
        refine ht.other hf (fun received' heq => ?_) (hne t hi)
        subst heq
        exact hij (append_unique hreach ⟨t, hi, ht.mem hrest⟩ (State.at_head hj hframes))
      | crash => exact ht
      | caught hframes => exact ht
  | @enter s' k u hr' hk _ ih =>
    obtain ⟨t, hi, ht⟩ := ih
    obtain ⟨hlt, -⟩ := List.getElem?_eq_some_iff.mp hi
    exact ⟨t, by rw [List.getElem?_append_left hlt, hi], ht⟩

theorem append_ne_self {α : Type} {l l' : List α} (h : l ≠ []) : l ++ l' ≠ l' := by
  intro heq
  exact h (List.append_left_eq_self.mp heq)

theorem cons_ne_self (f : Frame httpRequestHandler) : f :: rest ≠ rest :=
  append_ne_self (l := [f]) (List.cons_ne_nil _ _)

theorem cons_cons_ne_self (f g : Frame httpRequestHandler) : f :: g :: rest ≠ rest :=
  append_ne_self (l := [f, g]) (List.cons_ne_nil _ _)

theorem Reading.of_returned {x : Connection httpRequestHandler} {t : Thread httpRequestHandler}
    (h : Reading x c received rest t) (hrest : t.frames = rest) : x.isClosed = true ∨ x.http.isWriteWaiting = true := by
  cases h with
  | returned hx => exact hx
  | append => exact absurd hrest (cons_cons_ne_self _ _)
  | check => exact absurd hrest (cons_cons_ne_self _ _)
  | callback =>
    rw [List.append_cons] at hrest
    exact absurd hrest (append_ne_self (by simp))
  | _ => exact absurd hrest (cons_ne_self _)

theorem step_eof {t : Thread httpRequestHandler} {x : Shared httpRequestHandler}
    (ht : t.frames = .read c (.socket received) :: rest) : t.step x .eof = some (.readSocket c,
      ⟨.callback c (HttpRequestHandler.Pc.append received) :: .read c .integrity :: rest, t.result⟩) := by
  obtain ⟨frames, result⟩ := t
  cases ht
  rfl

theorem noticesEof_of_done {t : Thread httpRequestHandler} (h : Reachable httpRequestHandler closed readers writers s)
    (hrun : s.shared.terminated = false) (hi : s.threads[i]? = some t)
    (ht : t.frames = .read c (.socket received) :: rest) (hdone : (s.shared.conn c).Done (·.CompletedBy received)) :
    NoticesEof s i t c rest := by
  intro a t' s' hstep hr hret
  have hnext : Reachable httpRequestHandler closed readers writers ⟨a.apply s.shared, s.threads.set i t'⟩ :=
    .run h hrun hi hstep trivial
  rw [step_eof ht] at hstep
  cases hstep
  obtain ⟨hlt, -⟩ := List.getElem?_eq_some_iff.mp hi
  have hrest : .recheck .read c .lock ∈ rest := by
    have hmem := companion_part.mem_frames h t (List.mem_of_getElem? hi) (.read c (.socket received))
      (ht ▸ List.mem_cons_self) _ ⟨.read, c, rfl, rfl⟩
    simpa [ht] using hmem
  obtain ⟨u, hu, hread⟩ := reading_run hnext hr hrest ⟨⟨.callback c
    (HttpRequestHandler.Pc.append received) :: .read c .integrity :: rest, t.result⟩, by simp [hlt], .append hdone⟩
  obtain ⟨u', hu', hframes⟩ := hret
  cases hu.symm.trans hu'
  exact hread.of_returned hframes

end Run

/-! ### The flags of a connection that is still read -/

/-- While `c` waits for its request, no callback has begun to answer it. -/
structure Unanswered (s : State httpRequestHandler) (c : ConnId) : Prop where
  responding : s.count (Frame.responding c) = 0
  writeWaiting : s.shared.writeWaiting c = false

theorem inner_responding (c : ConnId) : Inner (Frame.responding c) :=
  ⟨fun _ => rfl, rfl, fun _ _ => rfl, fun _ _ => rfl, rfl, rfl⟩

/-- Only `clearRead` makes a callback that responds. -/
theorem FrameStep.responding {s : Shared httpRequestHandler} {result : Bool} {f : Frame httpRequestHandler}
    {a : Act httpRequestHandler} {fs : List (Frame httpRequestHandler)} {c : ConnId} (h : FrameStep s result f a fs)
    (hread : (a.apply s).readWaiting c = true) (hf : f.responding c = 0) : (fs.map (Frame.responding c)).sum = 0 := by
  cases f with
  | callback c' p =>
    obtain ⟨h', r, w, rfl, hr, -, hstep⟩ := callback_http h
    by_cases hc : c' = c
    · subst hc
      cases hstep with
      | clearRead =>
        simp [hr] at hread
      | respond => simp [Frame.responding] at hf
      | setWrite => simp [Frame.responding] at hf
      | _ => simp [Frame.responding]
    · cases hstep <;> simp [Frame.responding, hc]
  | onError d c' p => cases h <;> cases d <;> simp [Frame.responding, completeCallback]
  | _ => cases h <;> simp [Frame.responding]

theorem FrameStep.writeWaiting {s : Shared httpRequestHandler} {result : Bool} {f : Frame httpRequestHandler}
    {a : Act httpRequestHandler} {fs : List (Frame httpRequestHandler)} {c : ConnId} (h : FrameStep s result f a fs)
    (hf : f.responding c = 0) (hwrite : s.writeWaiting c = false) : (a.apply s).writeWaiting c = false := by
  rcases h.flags c with ⟨-, -, heq⟩ | ⟨p, r, w, rfl, -, hw, hstep⟩
  · rw [heq, hwrite]
  · rw [hw]
    cases hstep with
    | setWrite => simp [Frame.responding] at hf
    | clearWrite => rfl
    | _ => exact hwrite

theorem unanswered {closed : Bool} {readers writers : Nat} {s : State httpRequestHandler} {c : ConnId}
    (h : Reachable httpRequestHandler closed readers writers s) (hread : s.shared.readWaiting c = true) :
    Unanswered s c := by
  revert hread
  refine reach_invariant (P := fun s => s.shared.readWaiting c = true → Unanswered s c) ?_ ?_
    (fun ih hread => ⟨(ih hread).responding, (ih hread).writeWaiting⟩) ?_ ?_ h
  · intro _
    exact ⟨(inner_responding c).count_start closed readers writers, rfl⟩
  · intro s i t f rest fs a v _ ih hi ht hf _ hread
    have hbefore : s.shared.readWaiting c = true := by
      cases hb : s.shared.readWaiting c with
      | true => rfl
      | false => exact absurd (hread.symm.trans (hf.readWaiting_false hb)) (by decide)
    obtain ⟨hzero, hwrite⟩ := ih hbefore
    have hle := State.le_count (w := Frame.responding c) (List.mem_of_getElem? hi) (ht ▸ List.mem_cons_self)
    have hcount := State.count_frame (Frame.responding c) (a.apply s.shared) fs v hi ht
    have hnone : f.responding c = 0 := by omega
    rw [hf.responding hread hnone] at hcount
    exact ⟨by omega, hf.writeWaiting hnone hwrite⟩
  · intro s i t c' v _ ih hi ht hread
    obtain ⟨hzero, hwrite⟩ := ih hread
    exact ⟨by rw [(inner_responding c).count_caught hi ht, hzero], hwrite⟩
  · intro s k t ih hk _ hread
    obtain ⟨hzero, hwrite⟩ := ih hread
    exact ⟨by rw [(inner_responding c).count_enter s hk, hzero], hwrite⟩

/-! ### A `Read()` that forgets the end of the input -/

section Alone
variable {s₀ : State httpRequestHandler} {i : Nat} {c : ConnId} {received : ByteString}
  {rest : List (Frame httpRequestHandler)}

/-- One more step of thread `i`. -/
theorem Reach.next {x : Shared httpRequestHandler} {l : List (Thread httpRequestHandler)}
    {u u' : Thread httpRequestHandler} {a : Act httpRequestHandler} {o : Choice}
    (h : Reach (manager httpRequestHandler) (untilReturn i rest) s₀ ⟨x, l.set i u⟩) (hlt : i < l.length)
    (hrun : x.terminated = false) (hne : u.frames ≠ rest) (hs : u.step x o = some (a, u')) :
    Reach (manager httpRequestHandler) (untilReturn i rest) s₀ ⟨a.apply x, l.set i u'⟩ := by
  have hi : (l.set i u)[i]? = some u := by simp [hlt]
  have hnext := Interleaving.Reach.run h hrun hi hs (fun t ht => by cases hi.symm.trans ht; exact hne)
  rwa [List.set_set] at hnext

theorem setHandler_self {R : RequestHandler} (s : Shared R) (c : ConnId) :
    (Act.setHandler c (s.conn c).handler).apply s = s := by
  simp only [Act.apply, Shared.modify, Function.update_eq_self]

/-- Without the whole request, `Read()` returns with everything as it was. -/
theorem returns_incomplete {x : Shared httpRequestHandler} {l : List (Thread httpRequestHandler)} {v : Bool}
    (h : Reach (manager httpRequestHandler) (untilReturn i rest) s₀ ⟨x, l.set i ⟨.read c .integrity :: rest, v⟩⟩)
    (hlt : i < l.length) (hrun : x.terminated = false) (hread : x.readWaiting c = true)
    (hreq : (x.conn c).httpRequest.allReceived = false) :
    Reach (manager httpRequestHandler) (untilReturn i rest) s₀ ⟨x, l.set i ⟨rest, false⟩⟩ := by
  have hcheck : Thread.step x ⟨.callback c HttpRequestHandler.Pc.integrity :: .read c .complete :: rest, v⟩ .go =
      some (.setHandler c (x.conn c).handler, ⟨.read c .complete :: rest, false⟩) := by
    rw [Thread.step_ret callback_integrity, hreq]
    rfl
  have hcalled : Reach (manager httpRequestHandler) (untilReturn i rest) s₀
      ⟨x, l.set i ⟨.callback c HttpRequestHandler.Pc.integrity :: .read c .complete :: rest, v⟩⟩ :=
    Reach.next h hlt hrun (cons_ne_self _) (o := .go) rfl
  have hchecked := Reach.next hcalled hlt hrun (cons_cons_ne_self _ _) hcheck
  rw [setHandler_self] at hchecked
  have hfinish := Reach.next hchecked hlt hrun (cons_ne_self _) (o := .go) rfl
  exact Reach.next hfinish hlt hrun (cons_ne_self _) (o := .go) (step_finish hread)

/-- Bytes that do not complete the request: thread `i` runs alone, and `Read()` returns with the flags as before. -/
theorem returns_waiting {x : Shared httpRequestHandler} {l : List (Thread httpRequestHandler)} {v : Bool}
    {q : HttpRequest} (hlt : i < l.length) (hrun : x.terminated = false) (hread : x.readWaiting c = true)
    (happ : (x.conn c).httpRequest.append received = .ok q) (hq : q.allReceived = false) :
    ∃ s', Reach (manager httpRequestHandler) (untilReturn i rest) ⟨x, l.set i
        ⟨.callback c (HttpRequestHandler.Pc.append received) :: .read c .integrity :: rest, v⟩⟩ s' ∧
      ReturnedTo s' i rest ∧ (s'.shared.conn c).isClosed = (x.conn c).isClosed ∧
      s'.shared.writeWaiting c = x.writeWaiting c := by
  have happended : Thread.step x
      ⟨.callback c (HttpRequestHandler.Pc.append received) :: .read c .integrity :: rest, v⟩ .go =
      some (.setHandler c { (x.conn c).http with httpRequest := q }, ⟨.read c .integrity :: rest, false⟩) :=
    Thread.step_ret (callback_append_ok happ)
  have hnext := Reach.next .start hlt hrun (cons_cons_ne_self _ _) happended
  have hhttp := setHandler_http x c { (x.conn c).http with httpRequest := q }
  refine ⟨_, returns_incomplete hnext hlt hrun ?_ ?_, ⟨⟨rest, false⟩, by simp [hlt], rfl⟩, by simp, ?_⟩
  · exact (congrArg HttpRequestHandler.State.isReadWaiting hhttp).trans hread
  · rw [Connection.httpRequest, hhttp]
    exact hq
  · exact (congrArg HttpRequestHandler.State.isWriteWaiting hhttp).trans rfl

end Alone

theorem not_noticesEof {closed : Bool} {readers writers : Nat} {s : State httpRequestHandler} {i : Nat} {c : ConnId}
    {t : Thread httpRequestHandler} {received : ByteString} {rest : List (Frame httpRequestHandler)}
    (h : Reachable httpRequestHandler closed readers writers s) (hrun : s.shared.terminated = false)
    (hi : s.threads[i]? = some t) (ht : t.frames = .read c (.socket received) :: rest)
    (hnot : ¬(s.shared.conn c).Done (·.CompletedBy received)) : ¬NoticesEof s i t c rest := by
  intro hnotices
  obtain ⟨hlt, -⟩ := List.getElem?_eq_some_iff.mp hi
  simp only [Connection.Done, HttpRequest.CompletedBy, not_or, not_forall, Bool.not_eq_true, Bool.not_eq_false] at hnot
  obtain ⟨hclosed, hread, q, happ, hq⟩ := hnot
  obtain ⟨s', hr, hret, hclosed', hwrite'⟩ := returns_waiting (v := t.result) hlt hrun hread happ hq
  rcases hnotices _ _ s' (step_eof ht) hr hret with hyes | hyes
  · rw [hclosed', hclosed] at hyes
    cases hyes
  · rw [hwrite', (unanswered h hread).writeWaiting] at hyes
    cases hyes

/-- A `Read()` in which `read()` returns 0 ends with the connection closed or a response pending exactly when, at that
    `read()`, the connection is closed, its request is not waited for any more, or the bytes complete the request. -/
theorem eof_noticed_iff (closed : Bool) (readers writers : Nat) (s : State httpRequestHandler)
    (h : Reachable httpRequestHandler closed readers writers s) (hrun : s.shared.terminated = false) (i : Nat)
    (t : Thread httpRequestHandler) (c : ConnId) (received : ByteString) (rest : List (Frame httpRequestHandler))
    (hi : s.threads[i]? = some t) (ht : t.frames = .read c (.socket received) :: rest) :
    NoticesEof s i t c rest ↔ (s.shared.conn c).Done (·.CompletedBy received) := by
  constructor
  · intro hnotices
    by_contra hnot
    exact not_noticesEof h hrun hi ht hnot hnotices
  · exact noticesEof_of_done h hrun hi ht

/-- The next step of a thread is a `read()` of connection `c` behind the bytes `received`. -/
def Frame.receives (c : ConnId) (received : ByteString) : Frame httpRequestHandler → Bool
  | .read c' (.socket received') => c' = c ∧ received' = received
  | _ => false

theorem Frame.eq_of_receives {c : ConnId} {received : ByteString} {f : Frame httpRequestHandler}
    (h : f.receives c received = true) : f = .read c (.socket received) := by
  unfold Frame.receives at h
  split at h
  · obtain ⟨rfl, rfl⟩ := of_decide_eq_true h
    rfl
  · cases h

/-- With one reader and one writer: the reader, thread 0, is about to read the socket of connection 1. -/
def readerReads : List (Move Choice Call) :=
  [[.enter .newConnection, .run 2 .go, .enter (.report .canRead 1)], go 3 8, go 0 7].flatten

theorem exists_reading (moves : List (Move Choice Call)) (received : ByteString) (p : State httpRequestHandler → Bool)
    (hrun : ((manager httpRequestHandler).exec (fun _ _ _ => true) (fun _ => true)
      (start httpRequestHandler false 1 1) moves).any (fun s => s.shared.terminated = false ∧ p s = true ∧
        s.threads[0]?.any (Thread.next (Frame.receives 1 received))) = true) :
    ∃ (s : State httpRequestHandler) (t : Thread httpRequestHandler) (rest : List (Frame httpRequestHandler)),
      Reachable httpRequestHandler false 1 1 s ∧ s.shared.terminated = false ∧ p s = true ∧
      s.threads[0]? = some t ∧ t.frames = .read 1 (.socket received) :: rest := by
  obtain ⟨s, hs, hp⟩ := Reach.exists_of_exec Rule.any (fun _ _ _ _ => trivial) (fun _ _ => trivial) hrun
  obtain ⟨hopen, hp, hnext⟩ := of_decide_eq_true hp
  obtain ⟨t, ht, hnext⟩ := Option.any_eq_true _ _ |>.mp hnext
  obtain ⟨f, rest, heq, hf⟩ := Thread.next_iff.mp hnext
  exact ⟨s, t, rest, hs, hopen, hp, ht, Frame.eq_of_receives hf ▸ heq⟩

/-- A request of one line, and the peer has finished sending behind it. -/
theorem eof_noticed_after_request : ∃ s t rest, Reachable httpRequestHandler false 1 1 s ∧
    s.threads[0]? = some t ∧ t.frames = .read 1 (.socket [97, 13, 10, 13, 10]) :: rest ∧ NoticesEof s 0 t 1 rest := by
  obtain ⟨s, t, rest, hs, hopen, hp, ht, hframes⟩ := exists_reading
    [readerReads, [.run 0 (.data [97, 13, 10, 13, 10] [])]].flatten [97, 13, 10, 13, 10]
    (fun s => ((s.shared.conn 1).httpRequest.append [97, 13, 10, 13, 10]).toOption.all HttpRequest.allReceived)
    (by decide)
  refine ⟨s, t, rest, hs, ht, hframes, (eof_noticed_iff false 1 1 s hs hopen 0 t 1 _ rest ht hframes).mpr ?_⟩
  refine .inr (.inr fun q hq => ?_)
  rw [hq] at hp
  exact hp

/-- The peer finishes without a byte: `Read()` returns, the connection is neither closed nor answered, and the read
    worker has let it go with no event left to be handled. -/
theorem eof_forgotten : ¬(∀ (closed : Bool) (readers writers : Nat) (s : State httpRequestHandler) (i : Nat)
      (t : Thread httpRequestHandler) (c : ConnId) (received : ByteString) (rest : List (Frame httpRequestHandler)),
      Reachable httpRequestHandler closed readers writers s → s.shared.terminated = false →
      (s.shared.conn c).errorCode = .noError → s.threads[i]? = some t → t.frames = .read c (.socket received) :: rest →
      NoticesEof s i t c rest) ∧
    ∃ s, Reachable httpRequestHandler false 1 1 s ∧ s.shared.connectionMap 1 = true ∧ (s.shared.conn 1).isClosed = false ∧
      (s.shared.conn 1).errorCode = .noError ∧ s.shared.readWaiting 1 = true ∧ s.shared.writeWaiting 1 = false ∧
      (s.shared.conn 1).happened .read = 0 ∧ (s.shared.conn 1).busy .read = false ∧ s.shared.queue .read = [] := by
  constructor
  · intro hall
    obtain ⟨s, t, rest, hs, hopen, hp, ht, hframes⟩ := exists_reading readerReads []
      (fun s => (s.shared.conn 1).errorCode = .noError ∧ (s.shared.conn 1).isClosed = false ∧
        (s.shared.conn 1).http.isReadWaiting = true ∧
        ((s.shared.conn 1).httpRequest.append []).toOption.any (fun q => !q.allReceived)) (by decide)
    obtain ⟨herror, hclosed, hread, happ⟩ := of_decide_eq_true hp
    obtain ⟨q, hq, hnot⟩ := Option.any_eq_true _ _ |>.mp happ
    refine not_noticesEof hs hopen ht hframes ?_ (hall false 1 1 s 0 t 1 [] rest hs hopen herror ht hframes)
    rintro (hyes | hyes | hyes)
    · exact absurd (hyes.symm.trans hclosed) (by decide)
    · exact absurd (hyes.symm.trans hread) (by decide)
    · cases happ : (s.shared.conn 1).httpRequest.append [] with
      | error e =>
        rw [happ] at hq
        cases hq
      | ok q' =>
        rw [happ] at hq
        cases hq
        rw [hyes q happ] at hnot
        cases hnot
  · have hrun : ((manager httpRequestHandler).exec (fun _ _ _ => true) (fun _ => true)
        (start httpRequestHandler false 1 1) [readerReads, [.run 0 .eof], go 0 10].flatten).any
        (fun s => s.shared.connectionMap 1 = true ∧ (s.shared.conn 1).isClosed = false ∧
          (s.shared.conn 1).errorCode = .noError ∧ s.shared.readWaiting 1 = true ∧ s.shared.writeWaiting 1 = false ∧
          (s.shared.conn 1).happened .read = 0 ∧ (s.shared.conn 1).busy .read = false ∧ s.shared.queue .read = []) =
        true := by
      decide
    obtain ⟨s, hs, hp⟩ := Reach.exists_of_exec Rule.any (fun _ _ _ _ => trivial) (fun _ _ => trivial) hrun
    exact ⟨s, hs, of_decide_eq_true hp⟩

end SimpleHttp
