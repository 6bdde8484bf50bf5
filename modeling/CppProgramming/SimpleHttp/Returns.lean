import CppProgramming.SimpleHttp.EndOfFile

/-! # What ends a function

A function of the manager returns after a bounded number of its own steps, apart from a `SocketHandler::Read` that
goes on getting data. It only waits for a mutex, whose holder can go on; and an exception leaves it in few places. -/

namespace SimpleHttp
open Interleaving

/-! ### Where an exception comes from -/

section Throw
variable {R : RequestHandler} {s : Shared R} {o : Choice} {result : Bool} {a : Act R}

/-- The functions that an exception leaves in their next step. -/
inductive Throws (s : Shared R) (o : Choice) : Frame R → Prop
  | recheck {d c} : (s.conn c).busy d = false → Throws s o (.recheck d c .busy)
  | getValue {c} : s.connectionMap c = false → Throws s o (.addCache c .getValue)
  | callback {c p} : R.exec (s.conn c).handler p = .throw → Throws s o (.callback c p)
  | close {c p} : p ≠ .start → o = .fail → Throws s o (.close c p)
  | read {c received} : o = .fail → Throws s o (.read c (.socket received))
  | write {c rest} : o = .fail → Throws s o (.write c (.socket rest))

theorem closeCallback_throw {c : ConnId} {p : ClosePc} (h : closeCallback o c p = some (a, .throw)) : o = .fail := by
  unfold closeCallback at h
  split at h <;> cases h
  rfl

theorem Frame.throws_of_step {f : Frame R} (h : f.step s o result = some (a, .throw)) : Throws s o f := by
  cases f with
  | check k d c p =>
    cases p <;> simp only [Frame.step, checkToInQueue] at h <;> (try split at h) <;> cases h
  | recheck d c p =>
    cases p with
    | busy =>
      simp only [Frame.step, needReInQueue] at h
      split at h
      · cases h
      · next hb => exact .recheck (by simpa using hb)
    | test b => cases b <;> cases h
    | lock => simp only [Frame.step, needReInQueue] at h; split at h <;> cases h
    | event p => simp only [Frame.step, needReInQueue] at h; split at h <;> cases h
    | _ => cases h
  | addCache c p =>
    cases p with
    | add content => cases h
    | getValue =>
      simp only [Frame.step, addToWriteCache] at h
      split at h
      · cases h
      · next hm => exact .getValue (by simpa using hm)
  | callback c p =>
    simp only [Frame.step, SimpleHttp.callback] at h
    split at h
    · cases h
    · next hx => exact .callback hx
    · cases h
    · cases h
  | close c p =>
    cases p with
    | epDelete => exact .close (by simp) (closeCallback_throw h)
    | closeFd => exact .close (by simp) (closeCallback_throw h)
    | mapDelete => exact .close (by simp) (closeCallback_throw h)
    | _ => cases h
  | read c p =>
    cases p with
    | socket received =>
      simp only [Frame.step, SimpleHttp.read] at h
      split at h
      · split at h <;> cases h
      · cases h
      · cases h
      · exact .read rfl
      · cases h
    | _ =>
      simp only [Frame.step, SimpleHttp.read] at h
      (try split at h) <;> cases h
  | write c p =>
    cases p with
    | socket rest =>
      simp only [Frame.step, SimpleHttp.write] at h
      split at h
      · cases h
      · split at h
        · split at h <;> cases h
        · cases h
        · exact .write rfl
        · cases h
    | _ =>
      simp only [Frame.step, SimpleHttp.write] at h
      (try split at h) <;> cases h
  | onError d c p =>
    cases p <;> simp only [Frame.step, SimpleHttp.onError] at h <;> (try split at h) <;> cases h
  | finish d c p =>
    cases p <;> simp only [Frame.step, SimpleHttp.finish] at h <;> (try split at h) <;> cases h
  | load c p => cases p <;> cases h
  | worker d p =>
    cases p <;> simp only [Frame.step, process] at h <;> (try split at h) <;> cases h
  | report r c p =>
    cases p <;> simp only [Frame.step, SimpleHttp.report] at h <;> (try split at h) <;> cases h
  | newConnection => cases h
  | shut p =>
    cases p <;> simp only [Frame.step, SimpleHttp.shut] at h <;> (try split at h) <;> cases h
  | foreign => cases h

/-- A step that ends the process is that of a function which an exception leaves. -/
theorem Thread.throws_of_step {t t' : Thread R} (h : t.step s o = some (.terminate, t')) :
    ∃ f rest, t.frames = f :: rest ∧ Throws s o f := by
  unfold Thread.step at h
  split at h
  · cases h
  · next f rest ht =>
    refine ⟨f, rest, ht, ?_⟩
    split at h
    · cases h
    · next a fs hf =>
      cases h
      have := Frame.step_cases hf rfl
      cases this
    · next a v hf =>
      cases h
      have := Frame.step_cases hf rfl
      cases this
    · next a hf => exact Frame.throws_of_step hf

end Throw

/-! ### The way to the return -/

/-- How many steps of `ReadEventHappend` come in front of its last one. -/
def EventPc.work : EventPc → Nat
  | .start => 1
  | .counter _ | .error _ => 0

/-- How many steps a function has at most, the functions that it calls among them; a `read()` that returns data does
    not count. The functions of the worker loop and of `Write()` are left out. -/
def Frame.work : Frame httpRequestHandler → Nat
  | .check _ _ _ .lock => 9
  | .check _ _ _ (.event p) => 7 + p.work
  | .check _ _ _ .content => 6
  | .check _ _ _ .readWaiting => 5
  | .check _ _ _ .writeWaiting => 4
  | .check _ _ _ (.test _) => 3
  | .check _ _ _ .inQueue => 2
  | .check _ _ _ .notify => 1
  | .recheck _ _ .lock => 7
  | .recheck _ _ .busy => 6
  | .recheck _ _ (.event p) => 4 + p.work
  | .recheck _ _ .content => 3
  | .recheck _ _ (.test _) => 2
  | .recheck _ _ .inQueue => 1
  | .addCache _ (.add _) => 11
  | .addCache _ .getValue => 10
  | .callback _ HttpRequestHandler.Pc.readComplete => 15
  | .callback _ HttpRequestHandler.Pc.clearRead => 14
  | .callback _ HttpRequestHandler.Pc.respond => 13
  | .callback _ HttpRequestHandler.Pc.writeComplete => 2
  | .callback _ _ => 1
  | .close _ .start => 6
  | .close _ .epDelete => 5
  | .close _ .closeFd => 4
  | .close _ .mapDelete => 3
  | .close _ .release => 2
  | .close _ .setClosed => 1
  | .onError _ _ .test => 23
  | .onError _ _ .argument => 22
  | .finish _ _ .readWaiting => 8
  | .finish _ _ .writeWaiting => 7
  | .read _ .readable => 30
  | .read _ .take => 29
  | .read _ (.socket _) => 28
  | .read _ .integrity => 26
  | .read _ .complete => 24
  | .report _ _ .getValue => 21
  | .report _ _ .set => 20
  | .report _ _ .checkWrite => 10
  | _ => 0

theorem Sees.work {R : RequestHandler} {x : Connection R} {d : Side} {p : EventPc} {b : Bool} (h : Sees x d p b) :
    p.work = 0 := by
  cases p with
  | start => exact h.elim
  | counter n => rfl
  | error n => rfl

/-- A step of a function of `Read()` brings it nearer to its return. -/
theorem FrameStep.work {s : Shared httpRequestHandler} {result : Bool} {f : Frame httpRequestHandler}
    {a : Act httpRequestHandler} {fs : List (Frame httpRequestHandler)} (h : FrameStep s result f a fs)
    (hf : 0 < f.work) :
    (fs.map Frame.work).sum < f.work ∨
      ∃ c bytes more, f = .read c (.socket bytes) ∧ fs = [.read c (.socket (bytes ++ more))] := by
  cases f with
  | callback c p =>
    obtain ⟨h', r, w, -, -, -, hstep⟩ := callback_http h
    left
    cases hstep <;> simp [Frame.work]
  | read c p =>
    cases h with
    | readData => exact .inr ⟨_, _, _, rfl, rfl⟩
    | _ => left; simp [Frame.work]
  | onError d c p =>
    left
    cases h <;> cases d <;> simp [Frame.work, completeCallback]
  | check k d c p =>
    left
    cases h with
    | checkSeen hs => simp [Frame.work, hs.work]
    | checkEvent hs => simp [Frame.work, hs.work]
    | checkNoEvent hs => simp [Frame.work, hs.work]
    | _ => simp [Frame.work, EventPc.work]
  | recheck d c p =>
    left
    cases h with
    | recheckSeen hs => simp [Frame.work, hs.work]
    | recheckEvent hs => simp [Frame.work, hs.work]
    | recheckNoEvent hs => simp [Frame.work, hs.work]
    | _ => simp [Frame.work, EventPc.work]
  | _ =>
    left
    cases h <;> simp_all [Frame.work]

/-- A thread has a next step in which no system call fails. -/
def Thread.CanStep (s : Shared httpRequestHandler) (t : Thread httpRequestHandler) : Prop :=
  ∃ o a t', o ≠ Choice.fail ∧ t.step s o = some (a, t')

theorem Thread.canStep {s : Shared httpRequestHandler} {t : Thread httpRequestHandler} {f : Frame httpRequestHandler}
    {rest : List (Frame httpRequestHandler)} {o : Choice} (ht : t.frames = f :: rest) (ho : o ≠ .fail)
    (hf : f.step s o t.result ≠ none) : t.CanStep s := by
  have hsome : t.step s o ≠ none := by
    intro hnone
    rw [Thread.step, ht] at hnone
    simp only at hnone
    split at hnone
    · next hstep => exact hf hstep
    · cases hnone
    · cases hnone
    · split at hnone <;> cases hnone
  obtain ⟨⟨a, t'⟩, hs⟩ := Option.ne_none_iff_exists'.mp hsome
  exact ⟨o, a, t', ho, hs⟩

/-- A function of `Read()` only waits for a mutex. -/
theorem Frame.step_of_work (s : Shared httpRequestHandler) (result : Bool) {f : Frame httpRequestHandler}
    (hf : 0 < f.work) : (∃ o, o ≠ .fail ∧ f.step s o result ≠ none) ∨
      ∃ d, s.protect d = true ∧ ((∃ k c, f = .check k d c .lock) ∨ ∃ c, f = .recheck d c .lock) := by
  cases f with
  | check k d c p =>
    cases p with
    | lock =>
      cases hd : s.protect d with
      | true => exact .inr ⟨d, hd, .inl ⟨k, c, rfl⟩⟩
      | false => exact .inl ⟨.go, by simp, by simp [Frame.step, checkToInQueue, hd]⟩
    | _ =>
      refine .inl ⟨.go, by simp, ?_⟩
      simp only [Frame.step, checkToInQueue]
      try split
      all_goals simp
  | recheck d c p =>
    cases p with
    | lock =>
      cases hd : s.protect d with
      | true => exact .inr ⟨d, hd, .inr ⟨c, rfl⟩⟩
      | false => exact .inl ⟨.go, by simp, by simp [Frame.step, needReInQueue, hd]⟩
    | test b => exact .inl ⟨.go, by simp, by cases b <;> simp [Frame.step, needReInQueue]⟩
    | _ =>
      refine .inl ⟨.go, by simp, ?_⟩
      simp only [Frame.step, needReInQueue]
      try split
      all_goals simp
  | addCache c p =>
    refine .inl ⟨.go, by simp, ?_⟩
    cases p <;> simp only [Frame.step, addToWriteCache] <;> (try split) <;> simp
  | callback c p =>
    refine .inl ⟨.go, by simp, ?_⟩
    simp only [Frame.step, SimpleHttp.callback]
    split <;> simp
  | close c p => exact .inl ⟨.go, by simp, by cases p <;> simp [Frame.step, SimpleHttp.close, closeCallback]⟩
  | onError d c p =>
    refine .inl ⟨.go, by simp, ?_⟩
    cases p <;> simp only [Frame.step, SimpleHttp.onError] <;> (try split) <;> simp
  | finish d c p =>
    refine .inl ⟨.go, by simp, ?_⟩
    cases p <;> simp only [Frame.step, SimpleHttp.finish] <;> split <;> simp
  | read c p =>
    cases p with
    | socket bytes => exact .inl ⟨.again, by simp, by simp [Frame.step, SimpleHttp.read]⟩
    | _ =>
      refine .inl ⟨.go, by simp, ?_⟩
      simp only [Frame.step, SimpleHttp.read]
      try split
      all_goals simp
  | report r c p =>
    refine .inl ⟨.go, by simp, ?_⟩
    cases p with
    | getValue =>
      simp only [Frame.step, SimpleHttp.report]
      split <;> simp
    | set => cases r <;> simp [Frame.step, SimpleHttp.report]
    | checkWrite => simp [Frame.step, SimpleHttp.report]
  | _ => exact absurd hf (Nat.lt_irrefl 0)

/-- The thread that holds a mutex can go on. -/
theorem canStep_of_protect
    {rule : Rule (Shared httpRequestHandler) (Thread httpRequestHandler) (Act httpRequestHandler) Call}
    {closed : Bool} {readers writers : Nat} {s : State httpRequestHandler} {d : Side}
    (h : Reach (manager httpRequestHandler) rule (start httpRequestHandler closed readers writers) s)
    (hd : s.shared.protect d = true) : ∃ u ∈ s.threads, u.CanStep s.shared ∧ ∃ f ∈ u.frames, 0 < f.locks d := by
  have hcount := locks_eq h d
  rw [hd] at hcount
  obtain ⟨u, hu, f, hf, hlocks⟩ := State.count_pos.mp (by rw [hcount]; exact Nat.one_pos)
  refine ⟨u, hu, ?_, f, hf, hlocks⟩
  obtain ⟨g, rest, hframes⟩ := List.exists_cons_of_ne_nil (List.ne_nil_of_mem hf)
  have hsorted : Sorted (g :: rest) := hframes ▸ sorted h u hu
  -- A function in the section is the innermost one of its thread.
  have hhead : f = g := by
    rw [hframes] at hf
    refine (List.mem_cons.mp hf).elim id fun hrest => ?_
    cases f with
    | check k d' c p =>
      have hlt := hsorted.rank_lt hrest
      cases g <;> simp [Frame.rank] at hlt
    | recheck d' c p =>
      have := recheck_behind h u hu d' c p (by rw [hframes]; exact hrest)
      subst this
      cases hlocks
    | _ => cases hlocks
  subst hhead
  have hwork : 0 < f.work := by
    cases f with
    | check k d' c p => cases p <;> simp [Frame.work]
    | recheck d' c p => cases p <;> simp [Frame.work]
    | _ => cases hlocks
  rcases Frame.step_of_work s.shared u.result hwork with ⟨o, ho, hstep⟩ | ⟨d', -, ⟨k, c, rfl⟩ | ⟨c, rfl⟩⟩
  · exact Thread.canStep hframes ho hstep
  · cases hlocks
  · cases hlocks

end SimpleHttp
