import CppProgramming.SimpleHttp.EndOfFile

/-! # Answers

`ReadCompleteCallback` queues the response. `Connection::Read` calls it when the request is complete, and in front of
that when `errorCode` is set; the callback ignores the error code. Only `isReadWaiting` keeps it from answering twice,
and only a `Read()` without an error keeps it from answering a part of a request. -/

namespace SimpleHttp
open Interleaving

/-- The runs in which no `Read()` of `c` finds `errorCode` set while the handler waits for its request. -/
def readsWithoutError (c : ConnId) :
    Rule (Shared httpRequestHandler) (Thread httpRequestHandler) (Act httpRequestHandler) Call where
  step s t _ := ∀ rest, t.frames = .onError .read c .test :: rest →
    (s.shared.conn c).errorCode = .noError ∨ s.shared.readWaiting c = false
  call _ := True

/-- `AddToWriteCache` has been called at most once for `c`; a call that comes next is the first one, and its request
    has been received completely. -/
structure Answered (s : State httpRequestHandler) (c : ConnId) : Prop where
  once : s.shared.added c = [] ∨ s.shared.added c = HttpRequestHandler.contentToWrite
  complete : ∀ t ∈ s.threads, ∀ content rest, t.frames = .addCache c (.add content) :: rest →
    content = HttpRequestHandler.contentToWrite ∧ s.shared.added c = [] ∧
      (s.shared.conn c).httpRequest.allReceived = true

/-! ### One answer -/

/-- The string for `c` is added once, behind the change of `isReadWaiting`. -/
structure AddsOnce (s : State httpRequestHandler) (c : ConnId) : Prop where
  total : (s.shared.readWaiting c).toNat + s.count (Frame.toAdd c) + (if s.shared.added c = [] then 0 else 1) ≤ 1
  clearing : ∀ j, s.At j (.callback c HttpRequestHandler.Pc.clearRead) → s.shared.readWaiting c = true

section Once
variable {rule : Rule (Shared httpRequestHandler) (Thread httpRequestHandler) (Act httpRequestHandler) Call}
  {c : ConnId} {closed : Bool} {readers writers : Nat} {s : State httpRequestHandler}
  {i : Nat} {t : Thread httpRequestHandler} {f : Frame httpRequestHandler} {rest fs : List (Frame httpRequestHandler)}
  {a : Act httpRequestHandler} {v : Bool}

theorem FrameStep.clearing {s : Shared httpRequestHandler} {result : Bool} (h : FrameStep s result f a fs)
    (hmem : .callback c HttpRequestHandler.Pc.clearRead ∈ fs) : (a.apply s).readWaiting c = true := by
  cases f with
  | callback c' p =>
    obtain ⟨h', r, w, rfl, hr, -, hstep⟩ := callback_http h
    cases hstep with
    | readFirst hread =>
      cases List.mem_singleton.mp hmem
      simp [hr, hread]
    | clearRead => cases List.mem_singleton.mp hmem
    | respond =>
      rcases List.mem_cons.mp hmem with hmem | hmem
      · cases hmem
      · cases List.mem_singleton.mp hmem
    | writeWaited => cases List.mem_singleton.mp hmem
    | _ => cases hmem
  | onError d c' p => cases h <;> cases d <;> simp [completeCallback] at hmem <;> cases hmem
  | _ => cases h <;> simp at hmem <;> cases hmem

theorem AddsOnce.step (ih : AddsOnce s c)
    (hr : Reach (manager httpRequestHandler) rule (start httpRequestHandler closed readers writers) s)
    (hi : s.threads[i]? = some t) (ht : t.frames = f :: rest) (hf : FrameStep s.shared t.result f a fs) :
    AddsOnce ⟨a.apply s.shared, s.threads.set i ⟨fs ++ rest, v⟩⟩ c where
  total := by
    have hcount := State.count_frame (Frame.toAdd c) (a.apply s.shared) fs v hi ht
    have hstep := hf.once (c := c) (by rintro rfl; exact ih.clearing i (State.at_head hi ht))
    have htotal := ih.total
    show ((a.apply s.shared).readWaiting c).toNat + _ + (if (a.apply s.shared).added c = [] then 0 else 1) ≤ 1
    omega
  clearing := by
    intro j hj
    rcases State.at_frame hi ht hj with ⟨hmem, -⟩ | ⟨hj, hrest⟩
    · exact hf.clearing hmem
    · rcases hf.readWaiting_true (ih.clearing j hj) with hread | rfl
      · exact hread
      · exact (Orderly.clearRead_unique hr hi ht hj hrest).elim

theorem adds_once (h : Reach (manager httpRequestHandler) rule (start httpRequestHandler closed readers writers) s)
    (c : ConnId) : AddsOnce s c := by
  refine reach_invariant (P := fun s => AddsOnce s c) ?_ (fun hr ih hi ht hf _ => ih.step hr hi ht hf)
    (fun ih => ⟨ih.total, ih.clearing⟩) ?_ ?_ h
  · refine ⟨?_, ?_⟩
    · rw [State.count_start fun d => rfl]
      exact Nat.le_refl 1
    · intro j hj
      obtain ⟨d, hno⟩ := State.at_start hj
      cases hno
  · intro s i t c' v hr _ hi ht
    exact (not_caught rfl hr hi ht).elim
  · intro s k t ih hk _
    obtain ⟨hsum, hframes⟩ : t.sum (Frame.toAdd c) = 0 ∧ .callback c HttpRequestHandler.Pc.clearRead ∉ t.frames := by
      rcases Call.enter_http hk with rfl | ⟨r, c', rfl⟩ | rfl <;> simp [Thread.sum, Frame.toAdd]
    refine ⟨?_, fun j hj => ?_⟩
    · rw [State.count_enter, hsum]
      exact ih.total
    · exact (State.at_enter hj).elim (ih.clearing j) fun hmem => absurd hmem hframes

end Once

/-! ### The request -/

section Step
variable {s : Shared httpRequestHandler} {result : Bool} {f g : Frame httpRequestHandler} {a : Act httpRequestHandler}
  {fs : List (Frame httpRequestHandler)} {c : ConnId}

/-- A request that has been received stays as it is. -/
theorem FrameStep.allReceived (h : FrameStep s result f a fs) (hall : (s.conn c).httpRequest.allReceived = true) :
    ((a.apply s).conn c).httpRequest.allReceived = true := by
  by_cases hf : ∃ received, f = .callback c (HttpRequestHandler.Pc.append received)
  · obtain ⟨received, rfl⟩ := hf
    have happ : (s.conn c).httpRequest.append received = .ok (s.conn c).httpRequest := by
      exact if_pos hall
    have hexec : httpRequestHandler.exec (s.conn c).handler (HttpRequestHandler.Pc.append received) =
        .ret (s.conn c).http false := by
      show HttpRequestHandler.exec (s.conn c).http (.append received) = _
      have happ' : (s.conn c).http.httpRequest.append received = _ := happ
      simp only [HttpRequestHandler.exec, happ']
      rfl
    cases h with
    | callbackRet he =>
      cases hexec.symm.trans he
      rw [Connection.httpRequest, setHandler_http]
      exact hall
    | callbackGoto he => cases hexec.symm.trans he
    | callbackWrite he => cases hexec.symm.trans he
  · rw [h.httpRequest fun received heq => hf ⟨received, heq⟩]
    exact hall

/-- What a function that leads to the answer knows about the request. -/
def Frame.Asked (s : Shared httpRequestHandler) (c : ConnId) : Frame httpRequestHandler → Prop
  | .onError .read c' .argument => c' = c → s.readWaiting c = false
  | .callback c' HttpRequestHandler.Pc.readComplete =>
    c' = c → s.readWaiting c = false ∨ (s.conn c).httpRequest.allReceived = true
  | .callback c' HttpRequestHandler.Pc.clearRead | .callback c' HttpRequestHandler.Pc.respond =>
    c' = c → (s.conn c).httpRequest.allReceived = true
  | .addCache c' (.add content) =>
    c' = c → content = HttpRequestHandler.contentToWrite ∧ (s.conn c).httpRequest.allReceived = true
  | _ => True

theorem Frame.Asked.kept {s' : Shared httpRequestHandler} (h : g.Asked s c)
    (hread : s.readWaiting c = false → s'.readWaiting c = false)
    (hall : (s.conn c).httpRequest.allReceived = true → (s'.conn c).httpRequest.allReceived = true) : g.Asked s' c := by
  unfold Frame.Asked at h ⊢
  split at h
  · exact fun hc => hread (h hc)
  · exact fun hc => (h hc).imp hread hall
  · exact fun hc => hall (h hc)
  · exact fun hc => hall (h hc)
  · exact fun hc => (h hc).imp id hall
  · trivial

theorem FrameStep.asked (h : FrameStep s result f a fs) (hf : f.Asked s c)
    (hchecked : f = .read c .complete → result = true → (s.conn c).httpRequest.allReceived = true)
    (hok : f = .onError .read c .test → (s.conn c).errorCode = .noError ∨ s.readWaiting c = false) :
    ∀ g ∈ fs, g.Asked (a.apply s) c := by
  cases f with
  | callback c' p =>
    obtain ⟨h', r, w, rfl, -, -, hstep⟩ := callback_http h
    cases hstep with
    | readFirst hread =>
      intro g hg
      rw [List.mem_singleton.mp hg]
      rintro rfl
      rcases hf rfl with hno | hall
      · exact absurd (hread.symm.trans hno) (by decide)
      · exact h.allReceived hall
    | clearRead =>
      intro g hg
      rw [List.mem_singleton.mp hg]
      exact fun hc => h.allReceived (hf hc)
    | respond =>
      intro g hg
      rcases List.mem_cons.mp hg with rfl | hg
      · exact fun hc => ⟨rfl, h.allReceived (hf hc)⟩
      · rw [List.mem_singleton.mp hg]
        trivial
    | _ => simp [Frame.Asked]
  | onError d c' p =>
    cases h with
    | errorNone => simp
    | errorSome herror =>
      intro g hg
      rw [List.mem_singleton.mp hg]
      cases d with
      | read =>
        rintro rfl
        exact (hok rfl).resolve_left herror
      | write => trivial
    | errorArgument =>
      intro g hg
      rcases List.mem_cons.mp hg with rfl | hg
      · cases d with
        | read => exact fun hc => .inl (hf hc)
        | write => trivial
      · rw [List.mem_singleton.mp hg]
        trivial
  | read c' p =>
    cases h with
    | readComplete hresult =>
      intro g hg
      rcases List.mem_cons.mp hg with rfl | hg
      · rintro rfl
        exact .inr (hchecked rfl hresult)
      · rw [List.mem_singleton.mp hg]
        trivial
    | _ => simp [Frame.Asked]
  | _ =>
    cases h <;> first
      | exact List.forall_mem_singleton.mpr trivial
      | simp [Frame.Asked]

/-- `Read()` puts its test of the result behind the call of `CheckDataIntegrity`. -/
theorem FrameStep.completes (h : FrameStep s result f a fs) (hmem : .read c .complete ∈ fs) :
    fs = [.callback c HttpRequestHandler.Pc.integrity, .read c .complete] := by
  cases h <;> simp at hmem
  cases hmem
  rfl

end Step

/-- When `Read()` tests what `CheckDataIntegrity` returned, it is what the request says. -/
def Thread.Checked (t : Thread httpRequestHandler) (s : Shared httpRequestHandler) (c : ConnId) : Prop :=
  ∀ pre rest, t.frames = pre ++ Frame.read c .complete :: rest →
    pre = [] ∧ t.result = (s.conn c).httpRequest.allReceived ∨ pre = [Frame.callback c HttpRequestHandler.Pc.integrity]

namespace Thread.Checked
variable {s s' : Shared httpRequestHandler} {c : ConnId} {t t' : Thread httpRequestHandler} {o : Choice}
  {a : Act httpRequestHandler}

theorem of_not_mem (h : .read c .complete ∉ t.frames) : t.Checked s c := by
  intro pre rest heq
  rw [heq] at h
  exact absurd (List.mem_append_right pre List.mem_cons_self) h

theorem kept (h : t.Checked s c)
    (hreq : .read c .complete ∈ t.frames → (s'.conn c).httpRequest = (s.conn c).httpRequest) : t.Checked s' c := by
  intro pre rest heq
  rcases h pre rest heq with ⟨hpre, hresult⟩ | hpre
  · exact .inl ⟨hpre, by rw [hresult, hreq (heq ▸ List.mem_append_right pre List.mem_cons_self)]⟩
  · exact .inr hpre

theorem returned {rest : List (Frame httpRequestHandler)} {v : Bool}
    (hs : Thread.step s ⟨.callback c HttpRequestHandler.Pc.integrity :: rest, v⟩ o = some (a, t')) :
    t' = ⟨rest, ((a.apply s).conn c).httpRequest.allReceived⟩ := by
  rw [Thread.step_ret callback_integrity] at hs
  cases hs
  rw [Connection.httpRequest, Connection.httpRequest, setHandler_http]

theorem own (h : t.Checked s c) (hs : t.step s o = some (a, t')) : t'.Checked (a.apply s) c := by
  intro pre rest heq
  cases Thread.step_cases hs with
  | @frame f rest₀ fs _ v ht hf =>
    -- The test was on the stack before, or the step has put it there.
    have hsplit : (∃ l, pre = fs ++ l ∧ rest₀ = l ++ Frame.read c .complete :: rest) ∨ ∃ l, fs = pre ++ Frame.read c .complete :: l := by
      rcases List.append_eq_append_iff.mp heq with h | ⟨l, hfs, hl⟩
      · exact .inl h
      · cases l with
        | nil => exact .inl ⟨[], by simp [hfs], by simpa using hl.symm⟩
        | cons x l =>
          obtain ⟨rfl, -⟩ := List.cons_eq_cons.mp hl
          exact .inr ⟨l, hfs⟩
    rcases hsplit with ⟨l, rfl, rfl⟩ | ⟨l, rfl⟩
    · rcases h (f :: l) rest ht with ⟨hnil, -⟩ | hcons
      · cases hnil
      · obtain ⟨rfl, rfl⟩ := List.cons_eq_cons.mp hcons
        obtain ⟨frames, v₀⟩ := t
        cases ht
        obtain ⟨hframes, hresult⟩ := Thread.mk.injEq _ _ _ _ ▸ returned hs
        exact .inl ⟨by simpa using hframes, hresult⟩
    · have hfs := hf.completes (List.mem_append_right pre List.mem_cons_self)
      refine .inr ?_
      rcases pre with _ | ⟨x, _ | ⟨y, pre⟩⟩
      · simp at hfs
      · rw [(List.cons_eq_cons.mp hfs).1]
      · simp at hfs
  | crash => exact h pre rest heq
  | caught => simp at heq

end Thread.Checked

section Run
variable {rule : Rule (Shared httpRequestHandler) (Thread httpRequestHandler) (Act httpRequestHandler) Call}
  {c : ConnId} {closed : Bool} {readers writers : Nat} {s : State httpRequestHandler}

theorem checked (h : Reach (manager httpRequestHandler) rule (start httpRequestHandler closed readers writers) s)
    (c : ConnId) : ∀ t ∈ s.threads, t.Checked s.shared c := by
  induction h with
  | start =>
    intro t ht
    obtain ⟨d, rfl⟩ := eq_of_mem_start ht
    exact .of_not_mem (by simp)
  | @run s i o t t' a hr _ hi hs _ ih =>
    intro u hu
    rcases eq_or_of_mem_set hu with rfl | ⟨j, hne, hj⟩
    · exact (ih t (List.mem_of_getElem? hi)).own hs
    · have hbefore := ih u (List.mem_of_getElem? hj)
      cases Thread.step_cases hs with
      | frame ht hf =>
        refine hbefore.kept fun hmem => hf.httpRequest fun received heq => hne ?_
        -- Another thread hands no bytes to the handler, because this one reads `c`.
        subst heq
        exact thread_of_holds hr (companion_part.at_of_at hr ⟨u, hj, hmem⟩ ⟨.read, c, rfl, rfl⟩)
          (companion_owner.at_of_at hr (State.at_head hi ht) ⟨.read, c, rfl, rfl⟩)
      | crash => exact hbefore
      | caught => exact hbefore
  | enter hr hk _ ih =>
    intro u hu
    rcases List.mem_append.mp hu with hu | hu
    · exact ih u hu
    · rw [List.mem_singleton.mp hu]
      rcases Call.enter_http hk with rfl | ⟨r, c', rfl⟩ | rfl <;> exact .of_not_mem (by simp)

theorem asked
    (h : Reach (manager httpRequestHandler) (readsWithoutError c) (start httpRequestHandler closed readers writers) s) :
    ∀ j g, s.At j g → g.Asked s.shared c := by
  refine reach_invariant (P := fun s => ∀ j g, s.At j g → g.Asked s.shared c) ?_ ?_
    (fun ih j g hj => (ih j g hj).kept id id) ?_ ?_ h
  · intro j g hj
    obtain ⟨d, rfl⟩ := State.at_start hj
    trivial
  · intro s i t f rest fs a v hr ih hi ht hf hok j g hj
    rcases State.at_frame hi ht hj with ⟨hg, -⟩ | ⟨hj, -⟩
    · refine hf.asked (ih i f (State.at_head hi ht)) ?_ (fun heq => hok rest (heq ▸ ht)) g hg
      rintro rfl hresult
      rcases checked hr c t (List.mem_of_getElem? hi) [] rest ht with ⟨-, hall⟩ | hno
      · rw [← hall, hresult]
      · cases hno
    · exact (ih j g hj).kept hf.readWaiting_false hf.allReceived
  · intro s i t c' v _ ih _ _ j g hj
    exact ih j g (State.at_caught hj)
  · intro s k t ih hk _ j g hj
    rcases State.at_enter hj with hj | hmem
    · exact ih j g hj
    · rcases Call.enter_http hk with rfl | ⟨r, c', rfl⟩ | rfl <;> rw [List.mem_singleton.mp hmem] <;> trivial

theorem AddsOnce.added_of_toAdd (h : AddsOnce s c) {j : Nat} {g : Frame httpRequestHandler} (hj : s.At j g)
    (hg : g.toAdd c = 1) : s.shared.added c = [] := by
  obtain ⟨u, hu, hmem⟩ := hj
  have hle := State.le_count (w := Frame.toAdd c) (List.mem_of_getElem? hu) hmem
  have htotal := h.total
  by_contra hne
  rw [if_neg hne] at htotal
  omega

theorem added_once
    (h : Reach (manager httpRequestHandler) (readsWithoutError c) (start httpRequestHandler closed readers writers) s) :
    s.shared.added c = [] ∨ s.shared.added c = HttpRequestHandler.contentToWrite := by
  refine reach_invariant
    (P := fun s => s.shared.added c = [] ∨ s.shared.added c = HttpRequestHandler.contentToWrite) (.inl rfl) ?_
    (fun ih => ih) (fun _ ih _ _ => ih) (fun ih _ _ => ih) h
  intro s i t f rest fs a v hr ih hi ht hf _
  cases a with
  | addCache c' content =>
    by_cases hc : c' = c
    · subst hc
      cases hf
      have hhead := State.at_head hi ht
      have hnil := (adds_once hr c').added_of_toAdd hhead (by simp [Frame.toAdd])
      have hcontent := (asked hr i _ hhead rfl).1
      exact .inr (by simp [hnil, hcontent])
    · simpa [hc] using ih
  | _ => simpa using ih

end Run

/-- A connection is answered once, and not before its request is complete, in every run in which no `Read()` of it finds
    an error while the handler waits for the request. -/
theorem complete_request_answered_once (closed : Bool) (readers writers : Nat) (c : ConnId)
    (s : State httpRequestHandler)
    (h : Reach (manager httpRequestHandler) (readsWithoutError c) (start httpRequestHandler closed readers writers) s) :
    Answered s c where
  once := added_once h
  complete := by
    intro t ht content rest hframes
    obtain ⟨i, hi⟩ := List.getElem?_of_mem ht
    have hhead := State.at_head hi hframes
    obtain ⟨hcontent, hall⟩ := asked h i _ hhead rfl
    exact ⟨hcontent, (adds_once h c).added_of_toAdd hhead (by simp [Frame.toAdd]), hall⟩

/-! ### Errors -/

/-- A function that goes on to answer a complete request. -/
def Frame.answering (c : ConnId) : Frame httpRequestHandler → Prop
  | .read c' .integrity | .read c' .complete | .callback c' HttpRequestHandler.Pc.readComplete
  | .callback c' HttpRequestHandler.Pc.clearRead => c' = c
  | _ => False

/-- A complete request that has not been answered is about to be. -/
def Answering (s : State httpRequestHandler) (c : ConnId) : Prop :=
  s.shared.readWaiting c = true → (s.shared.conn c).httpRequest.allReceived = true → ∃ j g, s.At j g ∧ g.answering c

theorem companion_append : Companion (R := httpRequestHandler) fun f g =>
    ∃ c received, f = .callback c (HttpRequestHandler.Pc.append received) ∧ g = .read c .integrity where
  rank_lt := by
    rintro f g ⟨c, received, rfl, rfl⟩
    simp [Frame.rank]
  step := by
    rintro s result f a fs h f' hf' g ⟨c, received, rfl, rfl⟩
    cases f with
    | callback c' p =>
      obtain ⟨h', r, w, rfl, -, -, hstep⟩ := callback_http h
      cases hstep <;> simp at hf' <;> cases hf'
    | onError d c' p => cases h <;> cases d <;> simp [completeCallback] at hf' <;> cases hf'
    | read c' p =>
      cases h <;> simp at hf' <;> cases hf'
      exact .inr (by simp)
    | _ => cases h <;> simp at hf' <;> cases hf'
  report := by
    rintro r c g ⟨c', received, hno, -⟩
    cases hno
  write := by
    rintro - c content g ⟨c', received, hno, -⟩
    cases hno

theorem companion_error : Companion (R := httpRequestHandler) fun f g =>
    ∃ c p, f = .onError .read c p ∧ g = .read c .readable where
  rank_lt := by
    rintro f g ⟨c, p, rfl, rfl⟩
    simp [Frame.rank]
  step := by
    rintro s result f a fs h f' hf' g ⟨c, p, rfl, rfl⟩
    cases h <;> simp at hf'
    · obtain ⟨rfl, rfl, rfl⟩ := hf'
      exact .inl ⟨_, _, rfl, rfl⟩
    · obtain ⟨rfl, rfl⟩ := hf'
      exact .inr (by simp)
  report := by
    rintro r c g ⟨c', p, hno, -⟩
    cases hno
  write := by
    rintro - c content g ⟨c', p, hno, -⟩
    cases hno

section Run
variable {rule : Rule (Shared httpRequestHandler) (Thread httpRequestHandler) (Act httpRequestHandler) Call}
  {c : ConnId} {closed : Bool} {readers writers : Nat} {s : State httpRequestHandler}
  {i : Nat} {t : Thread httpRequestHandler} {f : Frame httpRequestHandler} {rest fs : List (Frame httpRequestHandler)}
  {a : Act httpRequestHandler} {v : Bool}

/-- The function that took a step hands the answer on. -/
theorem FrameStep.answering {s : Shared httpRequestHandler} {result : Bool} (h : FrameStep s result f a fs)
    (hf : f.answering c) (hread : (a.apply s).readWaiting c = true) (hall : (s.conn c).httpRequest.allReceived = true)
    (hchecked : f = .read c .complete → result = (s.conn c).httpRequest.allReceived) : ∃ g ∈ fs, g.answering c := by
  cases f with
  | callback c' p =>
    obtain ⟨h', r, w, rfl, hr, -, hstep⟩ := callback_http h
    cases hstep with
    | readFirst => exact ⟨_, List.mem_cons_self, hf⟩
    | readAgain hno =>
      cases (hf : c' = c)
      rw [h.readWaiting_false hno] at hread
      cases hread
    | clearRead =>
      cases (hf : c' = c)
      simp [hr] at hread
    | _ => cases hf
  | read c' p =>
    cases h with
    | readIntegrity => exact ⟨_, List.mem_cons_of_mem _ List.mem_cons_self, hf⟩
    | readComplete => exact ⟨_, List.mem_cons_self, hf⟩
    | readIncomplete hresult =>
      cases (hf : c' = c)
      rw [hchecked rfl, hall] at hresult
      cases hresult
    | _ => cases hf
  | _ => cases hf

theorem Answering.step (ih : Answering s c)
    (hr : Reach (manager httpRequestHandler) rule (start httpRequestHandler closed readers writers) s)
    (hi : s.threads[i]? = some t) (ht : t.frames = f :: rest) (hf : FrameStep s.shared t.result f a fs) :
    Answering ⟨a.apply s.shared, s.threads.set i ⟨fs ++ rest, v⟩⟩ c := by
  intro hread hall
  have hhead := State.at_head hi ht
  have hbefore : s.shared.readWaiting c = true := by
    cases hb : s.shared.readWaiting c with
    | true => rfl
    | false => exact absurd (hread.symm.trans (hf.readWaiting_false hb)) (by decide)
  by_cases happ : ∃ received, f = .callback c (HttpRequestHandler.Pc.append received)
  · -- The bytes that complete the request come from a `Read()` that goes on with `CheckDataIntegrity`.
    obtain ⟨received, rfl⟩ := happ
    have hat := companion_append.at_of_at hr hhead ⟨c, received, rfl, rfl⟩
    exact ⟨i, _, State.at_frame_old hi ht hat (fun _ hno => by cases hno), rfl⟩
  · have hreq := hf.httpRequest fun received heq => happ ⟨received, heq⟩
    have hcomplete : (s.shared.conn c).httpRequest.allReceived = true := hreq ▸ hall
    obtain ⟨j, g, hj, hg⟩ := ih hbefore hcomplete
    by_cases hmoved : j = i ∧ g = f
    · obtain ⟨rfl, rfl⟩ := hmoved
      obtain ⟨g', hmem, hg'⟩ := hf.answering hg hread hcomplete fun heq => by
        subst heq
        rcases checked hr c t (List.mem_of_getElem? hi) [] rest ht with ⟨-, hresult⟩ | hno
        · exact hresult
        · cases hno
      exact ⟨j, g', State.at_frame_new hi hmem, hg'⟩
    · exact ⟨j, g, State.at_frame_old hi ht hj fun hij hgf => hmoved ⟨hij, hgf⟩, hg⟩

theorem answering
    (h : Reach (manager httpRequestHandler) rule (start httpRequestHandler closed readers writers) s) (c : ConnId) :
    Answering s c := by
  refine reach_invariant (P := fun s => Answering s c) ?_ (fun hr ih hi ht hf _ => ih.step hr hi ht hf)
    (fun ih => ih) ?_ ?_ h
  · intro _ hno
    cases hno
  · intro s i t c' v hr _ hi ht
    exact (not_caught rfl hr hi ht).elim
  · intro s k t ih _ _ hread hall
    obtain ⟨j, g, hj, hg⟩ := ih hread hall
    exact ⟨j, g, State.at_enter_old hj, hg⟩

/-- A `Read()` that starts while the handler waits finds a part of a request. -/
theorem incomplete_of_waiting
    (h : Reach (manager httpRequestHandler) rule (start httpRequestHandler closed readers writers) s)
    (hi : s.threads[i]? = some t) (ht : t.frames = .onError .read c .test :: rest)
    (hread : s.shared.readWaiting c = true) : (s.shared.conn c).httpRequest.allReceived = false := by
  by_contra hno
  obtain ⟨j, g, hj, hg⟩ := answering h c hread (by simpa using hno)
  have hhead := State.at_head hi ht
  have hown : g.owner = some (.read, c) := by
    unfold Frame.answering at hg
    split at hg <;> first | (cases hg; rfl) | exact hg.elim
  have hij := thread_of_holds h (companion_part.at_of_at h hhead ⟨.read, c, rfl, rfl⟩)
    (companion_owner.at_of_at h hj ⟨.read, c, hown, rfl⟩)
  subst hij
  have hle := rank_le_head h hi ht hj
  have hreadable := companion_error.at_of_at h hhead ⟨c, _, rfl, rfl⟩
  unfold Frame.answering at hg
  split at hg
  · cases at_unique h hj hreadable rfl
  · cases at_unique h hj hreadable rfl
  · simp [Frame.rank] at hle
  · simp [Frame.rank] at hle
  · exact hg

theorem reach_own {R : RequestHandler} {s₀ : State R} {x : Shared R} {l : List (Thread R)} {i : Nat} {u u' : Thread R}
    {a : Act R} {o : Choice} (h : Reach (manager R) Rule.any s₀ ⟨x, l.set i u⟩) (hlt : i < l.length)
    (hrun : x.terminated = false) (hs : u.step x o = some (a, u')) :
    Reach (manager R) Rule.any s₀ ⟨a.apply x, l.set i u'⟩ := by
  have hnext := Interleaving.Reach.run h hrun (by simp [hlt] : (l.set i u)[i]? = some u) hs trivial
  rwa [List.set_set] at hnext

/-- What the condition on the runs leaves out: a `Read()` that finds an error while the handler waits goes on to answer
    a part of a request. -/
theorem error_answers_incomplete {i : Nat} {t : Thread httpRequestHandler} {rest : List (Frame httpRequestHandler)}
    (h : Reachable httpRequestHandler closed readers writers s) (hrun : s.shared.terminated = false)
    (hi : s.threads[i]? = some t) (ht : t.frames = .onError .read c .test :: rest)
    (herror : (s.shared.conn c).errorCode ≠ .noError) (hread : s.shared.readWaiting c = true) :
    ∃ s', Reach (manager httpRequestHandler) Rule.any s s' ∧ ¬Answered s' c := by
  have hpart := incomplete_of_waiting h hi ht hread
  obtain ⟨hlt, hget⟩ := List.getElem?_eq_some_iff.mp hi
  obtain ⟨frames, v⟩ := t
  cases ht
  have hstart : Reach (manager httpRequestHandler) Rule.any s
      ⟨s.shared, s.threads.set i ⟨.onError .read c .test :: rest, v⟩⟩ := by
    rw [← hget, List.set_getElem_self hlt]
    exact .start
  have htest : Thread.step s.shared ⟨.onError .read c .test :: rest, v⟩ .go =
      some (.look, ⟨.onError .read c .argument :: rest, v⟩) := by
    simp only [Thread.step, Frame.step, onError, if_neg herror]
    rfl
  have hcall : Thread.step s.shared
      ⟨.callback c HttpRequestHandler.Pc.readComplete :: .close c .start :: rest, v⟩ .go =
      some (.setHandler c (s.shared.conn c).http,
        ⟨.callback c HttpRequestHandler.Pc.clearRead :: .close c .start :: rest, v⟩) := by
    have hexec : httpRequestHandler.exec (s.shared.conn c).handler HttpRequestHandler.Pc.readComplete =
        .goto (s.shared.conn c).http HttpRequestHandler.Pc.clearRead := if_pos hread
    simp only [Thread.step, Frame.step, callback, hexec]
    rfl
  have hargument := reach_own (o := .go) (reach_own hstart hlt hrun htest) hlt hrun rfl
  have hcalled := reach_own hargument hlt hrun hcall
  have hcleared := reach_own (o := .go) hcalled hlt hrun rfl
  have hresponds := reach_own (o := .go) hcleared hlt hrun rfl
  refine ⟨_, hresponds, fun hanswered => ?_⟩
  have hall := (hanswered.complete _ (List.mem_iff_getElem?.mpr ⟨i, by simp [hlt]; rfl⟩) _ _ rfl).2.2
  simp only [Connection.httpRequest, setHandler_http, Act.apply_handler] at hall
  exact absurd (hpart.symm.trans hall) (by decide)

end Run

/-- `AddToWriteCache` of `c` is called next. -/
def Frame.startsAdd (c : ConnId) : Frame httpRequestHandler → Bool
  | .addCache c' (.add _) => c' = c
  | _ => false

theorem Frame.eq_of_startsAdd {c : ConnId} {f : Frame httpRequestHandler} (h : f.startsAdd c = true) :
    ∃ content, f = .addCache c (.add content) := by
  unfold Frame.startsAdd at h
  split at h
  · next content => exact ⟨content, by rw [of_decide_eq_true h]⟩
  · cases h

/-- A request of one line has been read, and its response is to be queued. -/
theorem complete_request_answered_once_line : ∃ s : State httpRequestHandler,
    Reach (manager httpRequestHandler) (readsWithoutError 1) (start httpRequestHandler false 1 1) s ∧
    (∃ t ∈ s.threads, ∃ content rest, t.frames = .addCache 1 (.add content) :: rest) ∧ Answered s 1 := by
  have hrun : ((manager httpRequestHandler).exec (fun s _ _ => (s.shared.conn 1).errorCode = .noError)
      (fun _ => true) (start httpRequestHandler false 1 1)
      [readerReads, [.run 0 (.data [97, 13, 10, 13, 10] []), .run 0 .again], go 0 7].flatten).any
      (fun s => s.threads.any (Thread.next (Frame.startsAdd 1))) = true := by decide
  obtain ⟨s, hs, hp⟩ := Reach.exists_of_exec (readsWithoutError 1)
    (fun _ _ _ hstep _ _ => .inl (of_decide_eq_true hstep)) (fun _ _ => trivial) hrun
  obtain ⟨t, ht, hadd⟩ := List.any_eq_true.mp hp
  obtain ⟨f, rest, heq, hf⟩ := Thread.next_iff.mp hadd
  obtain ⟨content, rfl⟩ := Frame.eq_of_startsAdd hf
  exact ⟨s, hs, ⟨t, ht, content, rest, heq⟩, complete_request_answered_once false 1 1 1 s hs⟩

/-- An error is reported for a connection that has not sent anything: the reader answers it. -/
theorem incomplete_request_answered : ¬∀ (closed : Bool) (readers writers : Nat) (c : ConnId)
    (s : State httpRequestHandler), Reachable httpRequestHandler closed readers writers s → Answered s c := by
  intro hall
  have hrun : ((manager httpRequestHandler).exec (fun _ _ _ => true) (fun _ => true)
      (start httpRequestHandler false 1 1)
      [[.enter .newConnection, .run 2 .go, .enter (.report .errorOccurred 1)], go 3 8, go 0 9].flatten).any
      (fun s : State httpRequestHandler => (s.shared.conn 1).httpRequest.allReceived = false ∧
        s.threads.any (Thread.next (Frame.startsAdd 1))) = true := by decide
  obtain ⟨s, hs, hp⟩ := Reach.exists_of_exec Rule.any (fun _ _ _ _ => trivial) (fun _ _ => trivial) hrun
  obtain ⟨hno, hadd⟩ := of_decide_eq_true hp
  obtain ⟨t, ht, hadd⟩ := List.any_eq_true.mp hadd
  obtain ⟨f, rest, heq, hf⟩ := Thread.next_iff.mp hadd
  obtain ⟨content, rfl⟩ := Frame.eq_of_startsAdd hf
  rw [((hall false 1 1 1 s hs).complete t ht content rest heq).2.2] at hno
  cases hno

end SimpleHttp
