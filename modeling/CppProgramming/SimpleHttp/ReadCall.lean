import CppProgramming.Lib.Trace
import CppProgramming.SimpleHttp.RequestLines
import CppProgramming.SimpleHttp.Returns

/-! # Exceptions of `Connection::Read`

Neither `Connection::Read` nor `ProcessRead` catches an exception. One can come from the parser, from `GetValue` in
`AddToWriteCache` when another thread has released the connection, and from a system call on a descriptor that
another thread has closed. -/

namespace SimpleHttp
open Interleaving

/-! ### Reads that nothing comes in between -/

/-- A `ProcessRead` worker is in `Read()` of `c`, or in the `NeedReInQueueRead` behind it. -/
def Thread.Handles (c : ConnId) (t : Thread httpRequestHandler) : Prop := ∃ p, .recheck .read c p ∈ t.frames

/-- `HttpRequestHandler::Write` of `c` is called, up to the `GetValue` of `AddToWriteCache`. -/
def Frame.looksUp (c : ConnId) : Frame httpRequestHandler → Bool
  | .callback c' HttpRequestHandler.Pc.clearRead | .callback c' HttpRequestHandler.Pc.respond | .addCache c' _ => c' = c
  | _ => false

/-- The step `a` of the thread `t` does not come in between a `Read()` of `c`: no `ReleaseConnection` in front of the
    `GetValue` of `AddToWriteCache`, no `Close` in front of a `read()`, and no second `Close` during the one of
    `Read()`. -/
structure Undisturbed (c : ConnId) (s : State httpRequestHandler) (t : Thread httpRequestHandler)
    (a : Act httpRequestHandler) : Prop where
  answers : t.frames.head? = some (.callback c HttpRequestHandler.Pc.readComplete) → s.shared.readWaiting c = true →
    s.shared.connectionMap c = true
  released : a = .release c → ∀ u ∈ s.threads, ∀ f ∈ u.frames, f.looksUp c = false
  reads : ∀ received, t.frames.head? = some (.read c (.socket received)) → s.shared.closes c = 0
  closes : a = .close c → s.shared.closes c = 0 ∨ ∀ u ∈ s.threads, u.Handles c → ∀ p, .close c p ∉ u.frames

/-- The runs in which no step comes in between a `Read()` of `c`. -/
def undisturbed (c : ConnId) :
    Rule (Shared httpRequestHandler) (Thread httpRequestHandler) (Act httpRequestHandler) Call where
  step := Undisturbed c
  call _ := True

/-- The system calls of a function that may fail: `read()` when the connection has been closed, and the callbacks of
    `Close` when it has been closed twice. -/
def Frame.MayFail (s : Shared httpRequestHandler) : Frame httpRequestHandler → Prop
  | .read c _ => 0 < s.closes c
  | .close c _ => 1 < s.closes c
  | _ => True

/-- What `AppendReceivedData` of `c` is called with in a step. -/
def received (c : ConnId) (_ : State httpRequestHandler) (t : Thread httpRequestHandler)
    (_ : Act httpRequestHandler) : List ByteString :=
  match t.frames with
  | .callback c' (HttpRequestHandler.Pc.append bytes) :: _ => if c' = c then [bytes] else []
  | _ => []

section Run
variable {rule : Rule (Shared httpRequestHandler) (Thread httpRequestHandler) (Act httpRequestHandler) Call}
  {closed : Bool} {readers writers : Nat} {c : ConnId} {chunks : List ByteString} {s : State httpRequestHandler}
  {t : Thread httpRequestHandler} {a : Act httpRequestHandler}

theorem received_of_append {bytes : ByteString} {rest : List (Frame httpRequestHandler)}
    (ht : t.frames = .callback c (HttpRequestHandler.Pc.append bytes) :: rest) : received c s t a = [bytes] := by
  unfold received
  rw [ht]
  exact if_pos rfl

theorem received_of_not_append (h : ∀ bytes rest, t.frames ≠ .callback c (HttpRequestHandler.Pc.append bytes) :: rest) :
    received c s t a = [] := by
  unfold received
  split
  · next c' bytes rest ht =>
    refine if_neg fun hc => ?_
    subst hc
    exact h bytes rest ht
  · rfl

/-- A call of `AppendReceivedData` that returns leaves what the parser has made of the bytes. -/
theorem append_callback {x : Shared httpRequestHandler} {result : Bool} {bytes : ByteString}
    {fs : List (Frame httpRequestHandler)}
    (h : FrameStep x result (.callback c (HttpRequestHandler.Pc.append bytes)) a fs) :
    (x.conn c).httpRequest.append bytes = .ok ((a.apply x).conn c).httpRequest := by
  have hexec : httpRequestHandler.exec (x.conn c).handler (HttpRequestHandler.Pc.append bytes) =
      HttpRequestHandler.exec (x.conn c).http (.append bytes) := rfl
  cases happ : (x.conn c).httpRequest.append bytes with
  | ok q =>
    have hret : HttpRequestHandler.exec (x.conn c).http (.append bytes) =
        .ret { (x.conn c).http with httpRequest := q } false := by
      have happ' : (x.conn c).http.httpRequest.append bytes = .ok q := happ
      simp only [HttpRequestHandler.exec, happ']
    cases h with
    | callbackRet he =>
      cases (hexec.trans hret).symm.trans he
      rw [Connection.httpRequest, setHandler_http]
    | callbackGoto he => cases (hexec.trans hret).symm.trans he
    | callbackWrite he => cases (hexec.trans hret).symm.trans he
  | error e =>
    have hthrow : HttpRequestHandler.exec (x.conn c).http (.append bytes) = .throw := by
      have happ' : (x.conn c).http.httpRequest.append bytes = .error e := happ
      simp only [HttpRequestHandler.exec, happ']
    cases h with
    | callbackRet he => cases (hexec.trans hthrow).symm.trans he
    | callbackGoto he => cases (hexec.trans hthrow).symm.trans he
    | callbackWrite he => cases (hexec.trans hthrow).symm.trans he

theorem foldlM_concat {bytes : ByteString} {q : HttpRequest} (h : chunks.foldlM HttpRequest.append {} = .ok q) :
    (chunks ++ [bytes]).foldlM HttpRequest.append {} = q.append bytes := by
  rw [List.foldlM_append, h]
  show ([bytes].foldlM HttpRequest.append q) = _
  rw [List.foldlM_cons]
  cases q.append bytes <;> rfl

/-- The request of a connection is what the parser has made of the chunks. -/
theorem request_of_trace
    (h : Trace (manager httpRequestHandler) rule (received c) (start httpRequestHandler closed readers writers) chunks s)
    (halive : s.shared.terminated = false) :
    chunks.foldlM HttpRequest.append {} = .ok (s.shared.conn c).httpRequest := by
  induction h with
  | start => rfl
  | @run l s i x t t' a htr hh hi hs hok ih =>
    have hbefore := ih hh
    cases Thread.step_cases hs with
    | @frame f rest fs a v ht hf =>
      by_cases happ : ∃ bytes, f = .callback c (HttpRequestHandler.Pc.append bytes)
      · obtain ⟨bytes, rfl⟩ := happ
        rw [received_of_append ht, foldlM_concat hbefore]
        exact append_callback hf
      · have hreq := hf.httpRequest (c := c) fun bytes heq => happ ⟨bytes, heq⟩
        rw [received_of_not_append fun bytes rest' heq => happ ⟨bytes, (List.cons.inj (ht.symm.trans heq)).1⟩,
          List.append_nil, hbefore]
        exact congrArg Except.ok hreq.symm
    | crash => cases halive
    | caught ht =>
      rw [received_of_not_append (by simp [ht]), List.append_nil]
      exact hbefore
  | enter _ hk _ ih => exact ih halive

end Run

/-! ### What the steps of the other threads leave -/

section Step
variable {s : Shared httpRequestHandler} {result : Bool} {f g : Frame httpRequestHandler} {a : Act httpRequestHandler}
  {fs : List (Frame httpRequestHandler)} {c : ConnId}

theorem FrameStep.looksUp (h : FrameStep s result f a fs) (hg : g ∈ fs) (hl : g.looksUp c = true) :
    f.looksUp c = true ∨ f = .callback c HttpRequestHandler.Pc.readComplete ∧ s.readWaiting c = true := by
  cases f with
  | callback c' p =>
    obtain ⟨h', r, w, -, -, -, hstep⟩ := callback_http h
    cases hstep with
    | readFirst hr =>
      cases List.mem_singleton.mp hg
      have hc : c' = c := of_decide_eq_true hl
      subst hc
      exact .inr ⟨rfl, hr⟩
    | clearRead =>
      cases List.mem_singleton.mp hg
      exact .inl hl
    | respond =>
      rcases List.mem_cons.mp hg with rfl | hg
      · exact .inl hl
      · cases List.mem_singleton.mp hg
        cases hl
    | writeWaited =>
      cases List.mem_singleton.mp hg
      cases hl
    | _ => cases hg
  | addCache c' p =>
    cases h with
    | addContent =>
      cases List.mem_singleton.mp hg
      exact .inl hl
    | addGetValue =>
      cases List.mem_singleton.mp hg
      cases hl
  | onError d c' p =>
    cases h with
    | errorArgument =>
      rcases List.mem_cons.mp hg with rfl | hg
      · cases d <;> cases hl
      · cases List.mem_singleton.mp hg
        cases hl
    | errorSome =>
      cases List.mem_singleton.mp hg
      cases hl
    | errorNone => cases hg
  | _ =>
    refine absurd hl ?_
    cases h <;> simp only [List.mem_cons, List.not_mem_nil, or_false] at hg <;>
      first | exact hg.elim | (rcases hg with rfl | rfl | rfl | rfl <;> simp [Frame.looksUp])

theorem FrameStep.pastStart (h : FrameStep s result f a fs) {q : ClosePc} (hq : q ≠ .start) (hg : .close c q ∈ fs) :
    a = .close c ∨ ∃ q', q' ≠ .start ∧ f = .close c q' := by
  cases h <;> simp at hg <;> simp_all

theorem FrameStep.not_recheck (h : FrameStep s result f a fs) {q p} (hf : f = .close c q) : .recheck .read c p ∉ fs := by
  subst hf
  cases h <;> simp

theorem connectionMap_kept {x : Shared httpRequestHandler} (h : x.connectionMap c = true) (ha : a ≠ .release c) :
    (a.apply x).connectionMap c = true := by
  cases a with
  | release c' =>
    have hc : c' ≠ c := fun heq => ha (heq ▸ rfl)
    simpa [hc] using h
  | register => simp [h]
  | _ => simpa using h

end Step

section Run
variable {closed : Bool} {readers writers : Nat} {c : ConnId} {s : State httpRequestHandler} {i j : Nat}
  {t : Thread httpRequestHandler} {f g : Frame httpRequestHandler} {rest fs : List (Frame httpRequestHandler)}
  {a : Act httpRequestHandler} {v : Bool}

/-- A connection whose response is on its way to the `WriteCache` is in the `ConnectionMap`. -/
theorem connectionMap_of_looksUp
    (h : Reach (manager httpRequestHandler) (undisturbed c) (start httpRequestHandler closed readers writers) s) :
    ∀ j g, s.At j g → g.looksUp c = true → s.shared.connectionMap c = true := by
  refine reach_invariant (P := fun s => ∀ j g, s.At j g → g.looksUp c = true → s.shared.connectionMap c = true)
    ?_ ?_ (fun ih => ih) (fun _ ih _ _ j g hj => ih j g (State.at_caught hj)) ?_ h
  · intro j g hj hg
    obtain ⟨d, rfl⟩ := State.at_start hj
    cases hg
  · intro s i t f rest fs a v hr ih hi ht hf hok j g hj hg
    have hhead := State.at_head hi ht
    -- The function that looks up was there before, or `ReadCompleteCallback` has just come to it.
    have hbefore : s.shared.connectionMap c = true ∧ a ≠ .release c := by
      have hold : ∀ j g, s.At j g → g.looksUp c = true → s.shared.connectionMap c = true ∧ a ≠ .release c := by
        intro j g hj hg
        refine ⟨ih j g hj hg, fun ha => ?_⟩
        obtain ⟨u, hu, hgu⟩ := hj
        have hno := (hok : Undisturbed c s t a).released ha u (List.mem_of_getElem? hu) g hgu
        rw [hno] at hg
        cases hg
      rcases State.at_frame hi ht hj with ⟨hnew, -⟩ | ⟨hj, -⟩
      · rcases hf.looksUp hnew hg with hl | ⟨rfl, hw⟩
        · exact hold i f hhead hl
        · refine ⟨(hok : Undisturbed c s t a).answers (by rw [ht]; rfl) hw, ?_⟩
          rintro rfl
          cases hf
      · exact hold j g hj hg
    exact connectionMap_kept hbefore.1 hbefore.2
  · intro s k t ih hk _ j g hj hg
    rcases State.at_enter hj with hj | hmem
    · exact ih j g hj hg
    · rcases Call.enter_http hk with rfl | ⟨r, c', rfl⟩ | rfl <;> cases List.mem_singleton.mp hmem <;> cases hg

/-- `Close` of a `Read()` is the only one. -/
theorem closes_le_one
    (h : Reach (manager httpRequestHandler) (undisturbed c) (start httpRequestHandler closed readers writers) s) :
    ∀ j p q, s.At j (.recheck .read c p) → s.At j (.close c q) → q ≠ .start → s.shared.closes c ≤ 1 := by
  refine reach_invariant (P := fun s => ∀ j p q, s.At j (.recheck .read c p) → s.At j (.close c q) → q ≠ .start →
    s.shared.closes c ≤ 1) ?_ ?_ (fun ih => ih)
    (fun _ ih _ _ j p q hp hq => ih j p q (State.at_caught hp) (State.at_caught hq)) ?_ h
  · intro j p q hp
    obtain ⟨d, hno⟩ := State.at_start hp
    cases hno
  · intro s i t f rest fs a v hr ih hi ht hf hok j p q hp hq hpast
    have hhead := State.at_head hi ht
    have hsorted : Sorted (f :: rest) := ht ▸ sorted hr t (List.mem_of_getElem? hi)
    -- The thread that is in `Close` of a `Read()` was in it before.
    have hbefore : s.At j (.recheck .read c p) ∧ ∃ q', s.At j (.close c q') ∧ (a ≠ .close c → q' ≠ .start) := by
      rcases State.at_frame hi ht hq with ⟨hnew, rfl⟩ | ⟨hq, hrest⟩
      · have hclose : ∃ q', f = .close c q' ∧ (a ≠ .close c → q' ≠ .start) := by
          rcases hf.pastStart hpast hnew with rfl | ⟨q', hq', rfl⟩
          · cases hf
            exact ⟨.start, rfl, fun hno => absurd rfl hno⟩
          · exact ⟨q', rfl, fun _ => hq'⟩
        obtain ⟨q', rfl, hq'⟩ := hclose
        rcases State.at_frame hi ht hp with ⟨hnew, -⟩ | ⟨hp, -⟩
        · exact absurd hnew (hf.not_recheck rfl)
        · exact ⟨hp, q', hhead, hq'⟩
      · refine ⟨?_, q, hq, fun _ => hpast⟩
        rcases State.at_frame hi ht hp with ⟨hnew, hij⟩ | ⟨hp, -⟩
        · have hlt := hsorted.rank_lt (hrest hij)
          have hle := hf.rank_le _ hnew
          simp only [Frame.rank] at hlt hle
          omega
        · exact hp
    obtain ⟨hp', q', hq', hpast'⟩ := hbefore
    by_cases ha : a = .close c
    · subst ha
      rcases (hok : Undisturbed c s t (.close c)).closes rfl with hzero | hno
      · simp [hzero]
      · obtain ⟨u, hu, hmem⟩ := hp'
        obtain ⟨u', hu', hmem'⟩ := hq'
        cases hu.symm.trans hu'
        exact absurd hmem' (hno u (List.mem_of_getElem? hu) ⟨p, hmem⟩ q')
    · have hkept : (a.apply s.shared).closes c = s.shared.closes c := by
        cases a with
        | close c' =>
          have hc : c' ≠ c := fun heq => ha (heq ▸ rfl)
          simp [hc]
        | _ => simp
      exact hkept ▸ ih j p q' hp' hq' (hpast' ha)
  · intro s k t ih hk _ j p q hp hq
    rcases State.at_enter hp with hp | hmem
    · rcases State.at_enter hq with hq | hmem
      · exact ih j p q hp hq
      · rcases Call.enter_http hk with rfl | ⟨r, c', rfl⟩ | rfl <;> cases List.mem_singleton.mp hmem
    · rcases Call.enter_http hk with rfl | ⟨r, c', rfl⟩ | rfl <;> cases List.mem_singleton.mp hmem

/-- The only callback that an exception leaves is `AppendReceivedData`. -/
theorem append_of_throw {x : Connection httpRequestHandler} {p : httpRequestHandler.Pc}
    (h : httpRequestHandler.exec x.handler p = .throw) :
    ∃ bytes e, p = HttpRequestHandler.Pc.append bytes ∧ x.httpRequest.append bytes = .error e := by
  have hexec : HttpRequestHandler.exec x.http p = .throw := h
  cases p with
  | append bytes =>
    cases happ : x.httpRequest.append bytes with
    | ok q =>
      have happ' : x.http.httpRequest.append bytes = .ok q := happ
      simp [HttpRequestHandler.exec, happ'] at hexec
    | error e => exact ⟨bytes, e, rfl, happ⟩
  | readComplete =>
    simp only [HttpRequestHandler.exec] at hexec
    split at hexec <;> cases hexec
  | writeComplete =>
    simp only [HttpRequestHandler.exec] at hexec
    split at hexec <;> cases hexec
  | _ => cases hexec

end Run

section Reader
variable {rule : Rule (Shared httpRequestHandler) (Thread httpRequestHandler) (Act httpRequestHandler) Call}
  {closed : Bool} {readers writers : Nat} {c : ConnId} {chunks : List ByteString} {s : State httpRequestHandler}
  {i : Nat} {t t' : Thread httpRequestHandler} {o : Choice} {a : Act httpRequestHandler}

/-- A worker that reads `c` runs no other function of a worker for it. -/
theorem not_write_of_handles
    (h : Reach (manager httpRequestHandler) rule (start httpRequestHandler closed readers writers) s)
    (ht : t ∈ s.threads) (hreads : t.Handles c) {f : Frame httpRequestHandler} (hf : f ∈ t.frames) (c' : ConnId) :
    f.part ≠ some (.write, c') := by
  intro hpart
  obtain ⟨p, hreads⟩ := hreads
  have hother := companion_part.mem_frames h t ht f hf _ ⟨.write, c', hpart, rfl⟩
  cases (sorted h t ht).eq_of_rank hother hreads rfl

theorem work_pos
    (h : Reach (manager httpRequestHandler) rule (start httpRequestHandler closed readers writers) s)
    (ht : t ∈ s.threads) (hreads : t.Handles c) : ∃ f rest, t.frames = f :: rest ∧ 0 < f.work := by
  have hother := fun {f} => not_write_of_handles h ht hreads (f := f)
  obtain ⟨p, hreads⟩ := hreads
  obtain ⟨f, rest, hframes⟩ := List.exists_cons_of_ne_nil (List.ne_nil_of_mem hreads)
  have hsorted : Sorted (f :: rest) := hframes ▸ sorted h t ht
  have hhead : f ∈ t.frames := hframes ▸ List.mem_cons_self
  have hrank : 1 ≤ f.rank := by
    rw [hframes] at hreads
    rcases List.mem_cons.mp hreads with rfl | hrest
    · exact Nat.le_refl 1
    · exact Nat.le_of_lt (hsorted.rank_lt hrest)
  refine ⟨f, rest, hframes, ?_⟩
  cases f with
  | check k d c' p => cases p <;> simp [Frame.work]
  | recheck d c' p => cases p <;> simp [Frame.work]
  | addCache c' p => cases p <;> simp [Frame.work]
  | callback c' p => cases p <;> simp [Frame.work]
  | close c' p => cases p <;> simp [Frame.work]
  | onError d c' p => cases p <;> simp [Frame.work]
  | finish d c' p => cases p <;> simp [Frame.work]
  | read c' p => cases p <;> simp [Frame.work]
  | report r c' p => cases p <;> simp [Frame.work]
  | load c' p => exact absurd rfl (hother hhead c')
  | write c' p => exact absurd rfl (hother hhead c')
  | _ => simp [Frame.rank] at hrank

/-- A worker that reads can go on, or waits for a mutex whose holder can. -/
theorem reader_goes_on
    (h : Reach (manager httpRequestHandler) rule (start httpRequestHandler closed readers writers) s)
    (ht : t ∈ s.threads) (hreads : t.Handles c) : t.CanStep s.shared ∨
      ∃ d, s.shared.protect d = true ∧ ∃ u ∈ s.threads, u.CanStep s.shared ∧ ∃ f ∈ u.frames, 0 < f.locks d := by
  obtain ⟨f, rest, hframes, hwork⟩ := work_pos h ht hreads
  rcases Frame.step_of_work s.shared t.result hwork with ⟨o, ho, hstep⟩ | ⟨d, hd, -⟩
  · exact .inl (Thread.canStep hframes ho hstep)
  · exact .inr ⟨d, hd, canStep_of_protect h hd⟩

theorem work_step
    (h : Reach (manager httpRequestHandler) rule (start httpRequestHandler closed readers writers) s)
    (hi : s.threads[i]? = some t) (hreads : t.Handles c) (hs : t.step s.shared o = some (a, t')) (hne : a ≠ .terminate) :
    t'.sum Frame.work < t.sum Frame.work ∨ ∃ bytes tail, o = .data bytes tail := by
  obtain ⟨f, rest, hframes, hwork⟩ := work_pos h (List.mem_of_getElem? hi) hreads
  cases Thread.step_cases hs with
  | @frame g rest' fs a v ht hf =>
    obtain ⟨rfl, rfl⟩ := List.cons.inj (hframes.symm.trans ht)
    rcases hf.work hwork with hlt | ⟨c', bytes, more, rfl, rfl⟩
    · left
      simp only [Thread.sum, hframes, List.map_append, List.sum_append, List.map_cons, List.sum_cons]
      omega
    · right
      rw [Thread.step, hframes] at hs
      cases o with
      | data bytes tail => exact ⟨bytes, tail, rfl⟩
      | fail =>
        simp [Frame.step, SimpleHttp.read] at hs
        exact absurd hs.1.symm hne
      | _ => simp [Frame.step, SimpleHttp.read] at hs
  | crash => exact absurd rfl hne
  | caught ht => exact (not_caught rfl h hi ht).elim

/-- With nothing coming in between, the next step of a worker that reads `c` throws exactly when the lines of the
    chunks so far are not taken. -/
theorem not_terminate_iff
    (h : Trace (manager httpRequestHandler) (undisturbed c) (received c)
      (start httpRequestHandler closed readers writers) chunks s)
    (halive : s.shared.terminated = false) (hi : s.threads[i]? = some t) (hreads : t.Handles c)
    (hs : t.step s.shared o = some (a, t')) (hok : Undisturbed c s t a)
    (hcalls : o = .fail → ∀ f, t.frames.head? = some f → f.MayFail s.shared) :
    a ≠ .terminate ↔ HttpRequest.TakesLines (chunks ++ received c s t a) := by
  have hreach := h.reach
  have hrequest := request_of_trace h halive
  have hmem := List.mem_of_getElem? hi
  rw [HttpRequest.takesLines_iff]
  constructor
  · intro hne
    cases Thread.step_cases hs with
    | @frame f rest fs a v ht hf =>
      by_cases happ : ∃ bytes, f = .callback c (HttpRequestHandler.Pc.append bytes)
      · obtain ⟨bytes, rfl⟩ := happ
        rw [received_of_append ht, foldlM_concat hrequest]
        exact ⟨_, append_callback hf⟩
      · rw [received_of_not_append fun bytes rest' heq => happ ⟨bytes, (List.cons.inj (ht.symm.trans heq)).1⟩,
          List.append_nil]
        exact ⟨_, hrequest⟩
    | crash => exact absurd rfl hne
    | caught ht => exact (not_caught rfl hreach hi ht).elim
  · rintro ⟨q, hq⟩ rfl
    obtain ⟨f, rest, ht, hthrow⟩ := Thread.throws_of_step hs
    have hhead : f ∈ t.frames := ht ▸ List.mem_cons_self
    have hfirst : t.frames.head? = some f := by rw [ht]; rfl
    obtain ⟨p, hp⟩ := hreads
    -- The function that throws is called for the connection that the worker reads.
    have hconn : ∀ c', f.conn = some c' → c' = c := fun c' hc' => conn_unique hreach t hmem f hhead _ hp c' c hc' rfl
    cases hthrow with
    | @recheck d c' hbusy =>
      obtain rfl := hconn c' rfl
      cases (sorted hreach t hmem).eq_of_rank hhead hp rfl
      rw [busy_of_holds hreach hmem hp] at hbusy
      cases hbusy
    | @getValue c' hmap =>
      obtain rfl := hconn c' rfl
      rw [connectionMap_of_looksUp hreach i _ ⟨t, hi, hhead⟩ (by simp [Frame.looksUp])] at hmap
      cases hmap
    | @callback c' p' hexec =>
      obtain rfl := hconn c' rfl
      obtain ⟨bytes, e, rfl, happ⟩ := append_of_throw hexec
      rw [received_of_append ht, foldlM_concat hrequest, happ] at hq
      cases hq
    | @close c' p' hpast hfail =>
      obtain rfl := hconn c' rfl
      have hmore : 1 < s.shared.closes c' := hcalls hfail _ hfirst
      have hle := closes_le_one hreach i p p' ⟨t, hi, hp⟩ ⟨t, hi, hhead⟩ hpast
      omega
    | @read c' bytes hfail =>
      obtain rfl := hconn c' rfl
      have hmore : 0 < s.shared.closes c' := hcalls hfail _ hfirst
      have hzero := hok.reads bytes hfirst
      omega
    | @write c' bytes hfail => exact absurd rfl (not_write_of_handles hreach hmem ⟨p, hp⟩ hhead c')

end Reader

/-- A `ProcessRead` worker in `Read()` of `c`, or in the `NeedReInQueueRead` behind it, in a run in which nothing has
    come in between. It can go on, or waits for a mutex whose holder can. A step of it in which nothing comes in
    between does not throw exactly when the lines of the chunks that `AppendReceivedData` has got, with those of this
    step, are taken; and it brings the worker nearer to the return, unless it is a `read()` that returns data. -/
theorem read_returns_iff {closed : Bool} {readers writers : Nat} {c : ConnId} {chunks : List ByteString}
    {s : State httpRequestHandler} {i : Nat} {t : Thread httpRequestHandler}
    (h : Trace (manager httpRequestHandler) (undisturbed c) (received c)
      (start httpRequestHandler closed readers writers) chunks s)
    (halive : s.shared.terminated = false) (hi : s.threads[i]? = some t) (hreads : t.Handles c) :
    (t.CanStep s.shared ∨
      ∃ d, s.shared.protect d = true ∧ ∃ u ∈ s.threads, u.CanStep s.shared ∧ ∃ f ∈ u.frames, 0 < f.locks d) ∧
    ∀ o a t', t.step s.shared o = some (a, t') → Undisturbed c s t a →
      (o = .fail → ∀ f, t.frames.head? = some f → f.MayFail s.shared) →
      (a ≠ .terminate ↔ HttpRequest.TakesLines (chunks ++ received c s t a)) ∧
      (a ≠ .terminate → t'.sum Frame.work < t.sum Frame.work ∨ ∃ bytes tail, o = .data bytes tail) :=
  ⟨reader_goes_on h.reach (List.mem_of_getElem? hi) hreads, fun _ _ _ hs hok hcalls =>
    ⟨not_terminate_iff h halive hi hreads hs hok hcalls, work_step h.reach hi hreads hs⟩⟩

/-! ### Runs -/

/-- The function is `NeedReInQueueRead` of `c`, called or to be called. -/
def Frame.isRecheck (c : ConnId) : Frame httpRequestHandler → Bool
  | .recheck .read c' _ => c' = c
  | _ => false

theorem Thread.handles_iff {c : ConnId} {t : Thread httpRequestHandler} :
    t.frames.any (Frame.isRecheck c) = true ↔ t.Handles c := by
  rw [List.any_eq_true]
  constructor
  · rintro ⟨f, hf, hc⟩
    unfold Frame.isRecheck at hc
    split at hc
    · next c' p =>
      obtain rfl := of_decide_eq_true hc
      exact ⟨p, hf⟩
    · cases hc
  · rintro ⟨p, hp⟩
    exact ⟨_, hp, by simp [Frame.isRecheck]⟩

/-- The action is an exception. -/
def Act.isTerminate : Act httpRequestHandler → Bool
  | .terminate => true
  | _ => false

/-- The action is one of `ReleaseConnection`. -/
def Act.isRelease : Act httpRequestHandler → Bool
  | .release _ => true
  | _ => false

/-- The action takes a connection out of a queue. -/
def Act.isDeQueue : Act httpRequestHandler → Bool
  | .deQueue _ _ => true
  | _ => false

/-- A connection that is open and without an error. -/
def Shared.isOpen (s : Shared httpRequestHandler) (c : ConnId) : Bool :=
  s.connectionMap c && s.closes c = 0 && (s.conn c).errorCode = .noError

/-- The runs in which a worker only calls `Read()` of `c` while it is open. -/
def readsOpen (c : ConnId) :
    Rule (Shared httpRequestHandler) (Thread httpRequestHandler) (Act httpRequestHandler) Call where
  step s _ a := a = .deQueue .read c → s.shared.isOpen c = true
  call _ := True

theorem trace_of_exec (rule : Rule (Shared httpRequestHandler) (Thread httpRequestHandler) (Act httpRequestHandler) Call)
    {step : State httpRequestHandler → Thread httpRequestHandler → Act httpRequestHandler → Bool}
    {moves : List (Move Choice Call)} {p : State httpRequestHandler → Bool}
    (hstep : ∀ s t a, step s t a = true → rule.step s t a) (hcall : ∀ k, rule.call k)
    (he : ((manager httpRequestHandler).exec step (fun _ => true) (start httpRequestHandler false 1 1) moves).any p = true) :
    ∃ s, Trace (manager httpRequestHandler) rule (received 1) (start httpRequestHandler false 1 1)
      ((manager httpRequestHandler).shown (received 1) (start httpRequestHandler false 1 1) moves) s ∧ p s = true := by
  obtain ⟨s, hs, hp⟩ := (Option.any_eq_true _ _).mp he
  exact ⟨s, by simpa using Trace.of_exec hstep (fun k _ => hcall k) .start hs, hp⟩

/-- A request comes in two chunks; the second one has been read. -/
def twoChunks : List (Move Choice Call) :=
  [[.enter .newConnection, .run 2 .go, .enter (.report .canRead 1), .enter (.report .canRead 1)], go 3 8, go 4 6,
    go 0 7, [.run 0 (.data [97, 13, 10, 107, 58, 118] []), .run 0 .again], go 0 16,
    [.run 0 (.data [13, 10, 13, 10] []), .run 0 .again]].flatten

/-- `AppendReceivedData` takes the second chunk, which ends a header line and the header block. -/
theorem read_returns_iff_two_chunks : ∃ s t t' a,
    Trace (manager httpRequestHandler) (undisturbed 1) (received 1) (start httpRequestHandler false 1 1)
      [[97, 13, 10, 107, 58, 118]] s ∧
    received 1 s t a = [[13, 10, 13, 10]] ∧ t.step s.shared .go = some (a, t') ∧
    (a ≠ .terminate ↔ HttpRequest.TakesLines ([[97, 13, 10, 107, 58, 118]] ++ received 1 s t a)) ∧
    (a ≠ .terminate → t'.sum Frame.work < t.sum Frame.work) := by
  have hrun : ((manager httpRequestHandler).exec
      (fun s t a => !a.isRelease && s.shared.closes 1 = 0 &&
        (s.shared.connectionMap 1 || t.frames.all fun f => f.conn.isNone))
      (fun _ => true) (start httpRequestHandler false 1 1) twoChunks).any
      (fun s => s.shared.terminated = false ∧ s.shared.closes 1 = 0 ∧ s.shared.connectionMap 1 = true ∧
        s.threads[0]?.any fun t : Thread httpRequestHandler => t.frames.any (Frame.isRecheck 1) ∧
          (t.step s.shared .go).any fun x =>
            !x.1.isRelease && received 1 s t x.1 = [[13, 10, 13, 10]]) = true := by
    decide
  have hopen : ∀ (s : State httpRequestHandler) (t : Thread httpRequestHandler) (a : Act httpRequestHandler),
      (!a.isRelease && s.shared.closes 1 = 0 &&
        (s.shared.connectionMap 1 || t.frames.all fun f => f.conn.isNone)) = true → Undisturbed 1 s t a := by
    intro s t a hstep
    simp only [Bool.and_eq_true, Bool.not_eq_true', decide_eq_true_eq, Bool.or_eq_true, List.all_eq_true] at hstep
    obtain ⟨⟨hrelease, hcloses⟩, hmap⟩ := hstep
    refine ⟨fun hhead _ => hmap.elim id fun hno => ?_, ?_, fun _ _ => hcloses, fun _ => .inl hcloses⟩
    · have := hno _ (List.mem_of_mem_head? hhead)
      cases this
    · rintro rfl
      cases hrelease
  obtain ⟨s, hs, hp⟩ := trace_of_exec (undisturbed 1) hopen (fun _ => trivial) hrun
  obtain ⟨halive, hcloses, hmap, hthread⟩ := of_decide_eq_true hp
  obtain ⟨t, hi, ht⟩ := (Option.any_eq_true _ _).mp hthread
  obtain ⟨hreads, hstep⟩ := of_decide_eq_true ht
  obtain ⟨⟨a, t'⟩, hstep, ha⟩ := (Option.any_eq_true _ _).mp hstep
  obtain ⟨hrelease, hreceived⟩ := Bool.and_eq_true_iff.mp ha
  have hok : Undisturbed 1 s t a := hopen s t a (by simp [hcloses, hmap, hrelease])
  obtain ⟨hlines, hwork⟩ := (read_returns_iff hs halive hi (Thread.handles_iff.mp hreads)).2 .go a t' hstep hok
    fun hno => by cases hno
  refine ⟨s, t, t', a, hs, of_decide_eq_true hreceived, hstep, hlines, fun hne => (hwork hne).elim id ?_⟩
  rintro ⟨bytes, tail, hno⟩
  cases hno

/-- No system call fails, and no `Read()` of an open connection throws, if the chunks that it has got are as `p` says. -/
def ReadsReturn (p : List ByteString → Prop) : Prop :=
  ∀ (closed : Bool) (readers writers : Nat) (c : ConnId) (chunks : List ByteString) (s : State httpRequestHandler)
    (i : Nat) (t t' : Thread httpRequestHandler) (o : Choice) (a : Act httpRequestHandler),
    Trace (manager httpRequestHandler) (readsOpen c) (received c) (start httpRequestHandler closed readers writers)
      chunks s →
    s.threads[i]? = some t → t.Handles c → t.step s.shared o = some (a, t') → o ≠ .fail →
    p (chunks ++ received c s t a) → a ≠ .terminate

/-- The reader, thread 0, throws in its next step, the one of the function `f`. -/
def readerThrows (f : Frame httpRequestHandler → Bool) (s : State httpRequestHandler) : Bool :=
  s.threads[0]?.any fun t : Thread httpRequestHandler =>
    t.next f && t.frames.any (Frame.isRecheck 1) && (t.step s.shared .go).any fun x => x.1.isTerminate

theorem not_readsReturn {p : List ByteString → Prop} {f : Frame httpRequestHandler → Bool}
    {moves : List (Move Choice Call)}
    (hrun : ((manager httpRequestHandler).exec (fun s _ a => !a.isDeQueue || s.shared.isOpen 1) (fun _ => true)
      (start httpRequestHandler false 1 1) moves).any (readerThrows f) = true)
    (hp : ∀ s t a, t.next f = true →
      p ((manager httpRequestHandler).shown (received 1) (start httpRequestHandler false 1 1) moves ++ received 1 s t a)) :
    ¬ReadsReturn p := by
  intro hall
  obtain ⟨s, h, hs⟩ := trace_of_exec (readsOpen 1)
    (by
      rintro s t a hstep rfl
      exact hstep)
    (fun _ => trivial) hrun
  obtain ⟨t, hi, ht⟩ := (Option.any_eq_true _ _).mp hs
  obtain ⟨ht, hstep⟩ := Bool.and_eq_true_iff.mp ht
  obtain ⟨hnext, hreads⟩ := Bool.and_eq_true_iff.mp ht
  obtain ⟨⟨a, t'⟩, hstep, hthrow⟩ := (Option.any_eq_true _ _).mp hstep
  refine hall false 1 1 1 _ s 0 t t' .go a h hi (Thread.handles_iff.mp hreads) hstep (by simp) (hp s t a hnext) ?_
  cases a <;> first | rfl | cases hthrow

/-- The header line `"b"` has no colon. -/
theorem read_throws : ¬ReadsReturn fun _ => True := by
  have hrun : ((manager httpRequestHandler).exec (fun s _ a => !a.isDeQueue || s.shared.isOpen 1) (fun _ => true)
      (start httpRequestHandler false 1 1)
      [readerReads, [.run 0 (.data [97, 13, 10, 98, 13, 10] []), .run 0 .again]].flatten).any
      (readerThrows fun _ => true) = true := by
    decide
  exact not_readsReturn hrun fun _ _ _ _ => trivial

/-- The lines alone do not keep `Read()` from throwing: the writer sends the response, closes the connection and
    releases it before `AddToWriteCache` looks it up. -/
theorem read_throws_released : ¬ReadsReturn HttpRequest.TakesLines := by
  have hrun : ((manager httpRequestHandler).exec (fun s _ a => !a.isDeQueue || s.shared.isOpen 1) (fun _ => true)
      (start httpRequestHandler false 1 1)
      [readerReads, [.run 0 (.data [97, 13, 10, 13, 10] []), .run 0 .again], go 0 8, [.enter (.report .canWrite 1)],
        go 4 9, go 1 10, [.run 1 (.accepted 45)], go 1 10].flatten).any (readerThrows (Frame.looksUp 1)) = true := by
    decide
  refine not_readsReturn hrun fun s t a hnext => ?_
  obtain ⟨f, rest, ht, hf⟩ := Thread.next_iff.mp hnext
  have hnone : received 1 s t a = [] := by
    refine received_of_not_append fun bytes rest' heq => ?_
    cases (List.cons.inj (ht.symm.trans heq)).1
    cases hf
  rw [hnone, List.append_nil]
  exact (HttpRequest.takesLines_iff _).mpr ⟨_, rfl⟩

end SimpleHttp
