import CppProgramming.SimpleHttp.Readiness

/-! # Unsent responses

Unsent bytes are in the `WriteCache` or in `response`, but `NeedInQueueWrite` and `NeedReInQueueWrite` only ask
for the former. Content of the `WriteCache` is looked after as a read event is; what a short write leaves in
`response` is not, once the worker has given the connection up. -/

namespace SimpleHttp
open Interleaving

variable {R : RequestHandler}

/-- There is content in the `WriteCache` and a recorded writable event. -/
def writable (R : RequestHandler) (c : ConnId) : Watch R where
  side := .write
  conn := c
  operand := .counter
  counts k := k ≠ .error
  adds := true
  ready s := (s.conn c).happened .write ≠ 0 ∧ s.hasContentToWrite c = true

theorem hasContent_raise {s : Shared R} {result : Bool} {f : Frame R} {a : Act R} {fs : List (Frame R)}
    (h : FrameStep s result f a fs) {c : ConnId} (hr : (a.apply s).hasContentToWrite c = true) :
    s.hasContentToWrite c = true ∨ fs = [.addCache c .getValue] := by
  cases a with
  | addCache c' content =>
    by_cases hc : c' = c
    · subst hc
      cases h
      exact Or.inr rfl
    · exact Or.inl (by simpa [Shared.hasContentToWrite, hc] using hr)
  | getCache c' =>
    by_cases hc : c' = c
    · simp [Shared.hasContentToWrite, hc] at hr
    · exact Or.inl (by simpa [Shared.hasContentToWrite, hc] using hr)
  | _ => exact Or.inl hr

theorem writable_lawful (hR : R.spontaneous = false) (c : ConnId) : (writable R c).Lawful where
  initial closed h := h.1 rfl
  crash s h := h
  counter _ s h hr := hr.1 h
  error h := by cases h
  content _ s h hr := Bool.false_ne_true (h.symm.trans hr.2)
  adds _ := ⟨rfl, rfl, hR⟩
  raise h hr := by
    rcases happened_raise h hr.1 with hw | rfl | hp
    · rcases hasContent_raise h hr.2 with hc | rfl
      · exact Or.inl ⟨hw, hc⟩
      · exact Or.inr (Or.inl (by simp [Watch.covers, writable]))
    · exact Or.inr (Or.inl (by simp [Watch.covers, writable, CheckPc.mayFind]))
    · exact Or.inr (Or.inr hp)

/-- The function comes after `SetWritable` or `WriteCache::Add` for `c`, and `NeedInQueueWrite` has not
    returned. -/
def Frame.announces (c : ConnId) : Frame R → Bool
  | .check k .write c' p => k ≠ .error && c' = c && p.undecided
  | .addCache c' .getValue => c' = c
  | _ => false

theorem announces_of_covers {c : ConnId} {f : Frame R} (h : 0 < (writable R c).covers f) : f.announces c = true := by
  rcases Watch.of_covers h with ⟨k, p, rfl, hk, hp⟩ | ⟨-, rfl⟩
  · have : k ≠ .error := of_decide_eq_true hk
    simp [Frame.announces, writable, this, hp]
  · simp [Frame.announces, writable]

/-- The response of `c` is not stranded: an open connection with unsent bytes and a recorded writable event is
    queued for write or being written, or some thread is about to look at it. -/
def NotStranded (s : State R) (c : ConnId) : Prop :=
  (s.shared.conn c).isClosed = false → (s.shared.conn c).errorCode = .noError →
    (s.shared.conn c).response ≠ [] ∨ s.shared.cached c ≠ [] → (s.shared.conn c).happened .write ≠ 0 →
    (s.shared.conn c).busy .write = true ∨ ∃ t ∈ s.threads, ∃ f ∈ t.frames, f.announces c = true

/-- The runs in which no write worker gives `c` up (`NeedReInQueueWrite` returns false) while `response` holds
    bytes. -/
def sendsBeforeGivingUp (R : RequestHandler) (c : ConnId) : Rule (Shared R) (Thread R) (Act R) Call where
  step s _ a := a = .delist .write c → (s.shared.conn c).response = []
  call _ := True

section Run
variable {closed : Bool} {readers writers : Nat} {s : State R}

/-- Content of the `WriteCache` is not stranded, in any run. -/
theorem cached_not_stranded {rule : Rule (Shared R) (Thread R) (Act R) Call} (hR : R.spontaneous = false)
    (h : Reach (manager R) rule (start R closed readers writers) s) {c : ConnId} (hc : s.shared.cached c ≠ [])
    (hw : (s.shared.conn c).happened .write ≠ 0) :
    (s.shared.conn c).busy .write = true ∨ ∃ t ∈ s.threads, ∃ f ∈ t.frames, f.announces c = true := by
  rcases (writable_lawful hR c).kept h ⟨hw, by simpa [Shared.hasContentToWrite] using hc⟩ with ⟨hbusy, -⟩ | hpos
  · exact Or.inl hbusy
  · obtain ⟨t, ht, f, hf, hcover⟩ := State.count_pos.mp hpos
    exact Or.inr ⟨t, ht, f, hf, announces_of_covers hcover⟩

/-- Bytes in `response` are in the hands of a worker as long as none gives them up. -/
theorem busy_of_response {c : ConnId}
    (h : Reach (manager R) (sendsBeforeGivingUp R c) (start R closed readers writers) s) :
    (s.shared.conn c).response ≠ [] → (s.shared.conn c).busy .write = true := by
  refine reach_invariant (P := fun s => (s.shared.conn c).response ≠ [] → (s.shared.conn c).busy .write = true)
    (fun hne => absurd rfl hne) ?_ (fun h => h) (fun _ ih _ _ => ih) (fun ih _ _ => ih) h
  intro s i t f rest fs a v hr ih hi ht hf hok hne
  have hpart := busy_of_part (d := .write) (c := c) hr (List.mem_of_getElem? hi) (ht ▸ List.mem_cons_self : f ∈ t.frames)
  cases a with
  | setResponse c' content =>
    by_cases hc : c' = c
    · subst hc
      cases hf
      rw [Act.apply_busy]
      exact hpart rfl
    · simp only [Act.apply_response, Act.apply_busy, hc, if_false] at hne ⊢
      exact ih hne
  | store c' rest' =>
    by_cases hc : c' = c
    · subst hc
      rw [Act.apply_busy]
      cases hf <;> exact hpart rfl
    · simp only [Act.apply_response, Act.apply_busy, hc, if_false] at hne ⊢
      exact ih hne
  | enlist d c' =>
    simp only [Act.apply_response, Act.apply_busy] at hne ⊢
    split_ifs
    · rfl
    · exact ih hne
  | delist d c' =>
    simp only [Act.apply_response, Act.apply_busy] at hne ⊢
    split_ifs with hdc
    · obtain ⟨rfl, rfl⟩ := hdc
      exact absurd (hok rfl) hne
    · exact ih hne
  | _ =>
    simp only [Act.apply_response, Act.apply_busy] at hne ⊢
    exact ih hne

end Run

/-- No response is stranded in the runs in which a write worker only gives a connection up when it has sent
    its `response`. -/
theorem response_not_stranded (closed : Bool) (readers writers : Nat) (c : ConnId) (s : State httpRequestHandler)
    (h : Reach (manager httpRequestHandler) (sendsBeforeGivingUp httpRequestHandler c)
      (start httpRequestHandler closed readers writers) s) : NotStranded s c := by
  intro _ _ hunsent hw
  rcases hunsent with hresponse | hcached
  · exact Or.inl (busy_of_response h hresponse)
  · exact cached_not_stranded rfl h hcached hw

/-- `NeedReInQueueWrite` returns false. -/
def Act.givesUp : Act R → Bool
  | .delist .write _ => true
  | _ => false

/-- After a short write, before the worker tests whether it has to go on. -/
theorem response_not_stranded_short : ∃ s : State httpRequestHandler,
    Reach (manager httpRequestHandler) (sendsBeforeGivingUp httpRequestHandler 1)
      (start httpRequestHandler false 1 1) s ∧
    (s.shared.conn 1).response ≠ [] ∧ NotStranded s 1 := by
  have hrun : ((manager httpRequestHandler).exec (fun _ _ a => !a.givesUp)
      (fun _ => true) (start httpRequestHandler false 1 1)
      [responseLoaded, [.run 1 (.accepted 3), .run 1 .again], go 1 3].flatten).any
      (fun s => (s.shared.conn 1).response ≠ []) = true := by decide
  obtain ⟨s, hs, hp⟩ := Reach.exists_of_exec (sendsBeforeGivingUp httpRequestHandler 1)
    (by rintro s t a hstep rfl; cases hstep) (fun _ _ => trivial) hrun
  exact ⟨s, hs, of_decide_eq_true hp, response_not_stranded false 1 1 1 s hs⟩

/-- The writer gives up after a short write, because the `WriteCache` is empty, and the next writable event
    does not bring it back. -/
theorem response_stranded : ¬∀ (closed : Bool) (readers writers : Nat) (s : State httpRequestHandler) (c : ConnId),
    Reachable httpRequestHandler closed readers writers s → NotStranded s c := by
  intro hall
  have hrun : ((manager httpRequestHandler).exec (fun _ _ _ => true) (fun _ => true)
      (start httpRequestHandler false 1 1)
      [responseLoaded, [.run 1 (.accepted 3), .run 1 .again], go 1 8, [.enter (.report .canWrite 1)], go 5 9].flatten).any
      (fun s => (s.shared.conn 1).isClosed = false ∧ (s.shared.conn 1).errorCode = .noError ∧
        (s.shared.conn 1).response ≠ [] ∧ (s.shared.conn 1).happened .write ≠ 0 ∧
        (s.shared.conn 1).busy .write = false ∧ s.threads.all (fun t => t.frames.all fun f => !f.announces 1)) = true := by
    decide
  obtain ⟨s, hs, hp⟩ := Reach.exists_of_exec Rule.any (fun _ _ _ _ => trivial) (fun _ _ => trivial) hrun
  obtain ⟨hopen, herror, hresponse, hw, hbusy, hno⟩ := of_decide_eq_true hp
  rcases hall false 1 1 s 1 hs hopen herror (Or.inl hresponse) hw with hyes | ⟨t, ht, f, hf, hyes⟩
  · rw [hbusy] at hyes
    cases hyes
  · have := List.all_eq_true.mp (List.all_eq_true.mp hno t ht) f hf
    rw [hyes] at this
    cases this

end SimpleHttp
