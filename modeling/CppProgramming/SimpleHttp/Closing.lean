import CppProgramming.SimpleHttp.Conservation

/-! # Closing without an error

Without an error a connection is closed by the worker that finds `IsWaiting()` false at the end of `Read()` or
`Write()`. `HttpRequestHandler` answers one request with one call of `write`, so there is one string to send
for a connection; this module follows it from `clearRead` to the last `write()`, and finds out what a worker
knows about it when it closes the connection. -/

namespace SimpleHttp
open Interleaving

/-- The flags of the handler of `c`. -/
def Shared.readWaiting {R : RequestHandler} (s : Shared R) (c : ConnId) : Bool := R.isReadWaiting (s.conn c).handler

/-- `isWriteWaiting` of the connection `c`. -/
def Shared.writeWaiting {R : RequestHandler} (s : Shared R) (c : ConnId) : Bool := R.isWriteWaiting (s.conn c).handler

section Flags
variable {R : RequestHandler} (a : Act R) (s : Shared R) (c : ConnId)

@[simp] theorem Act.apply_readWaiting : (a.apply s).readWaiting c =
    match a with
    | .setHandler c' h => if c' = c then R.isReadWaiting h else s.readWaiting c
    | _ => s.readWaiting c := by
  unfold Shared.readWaiting
  rw [Act.apply_handler]
  cases a <;> first | rfl | exact apply_ite _ _ _ _

@[simp] theorem Act.apply_writeWaiting : (a.apply s).writeWaiting c =
    match a with
    | .setHandler c' h => if c' = c then R.isWriteWaiting h else s.writeWaiting c
    | _ => s.writeWaiting c := by
  unfold Shared.writeWaiting
  rw [Act.apply_handler]
  cases a <;> first | rfl | exact apply_ite _ _ _ _

end Flags

/-! ### The callbacks of `HttpRequestHandler` -/

/-- A step of a callback from the flags `r` and `w` to other ones. -/
inductive HttpStep (c : ConnId) (r w : Bool) :
    HttpRequestHandler.Pc → Bool → Bool → List (Frame httpRequestHandler) → Prop
  | append {received} : HttpStep c r w (.append received) r w []
  | integrity : HttpStep c r w .integrity r w []
  | readFirst : r = true → HttpStep c r w .readComplete r w [.callback c HttpRequestHandler.Pc.clearRead]
  | readAgain : r = false → HttpStep c r w .readComplete r w []
  | clearRead : HttpStep c r w .clearRead false w [.callback c HttpRequestHandler.Pc.respond]
  | respond : HttpStep c r w .respond r w
      [.addCache c (.add HttpRequestHandler.contentToWrite), .callback c HttpRequestHandler.Pc.setWrite]
  | setWrite : HttpStep c r w .setWrite r true []
  | writeWaited : w = true → HttpStep c r w .writeComplete r w [.callback c HttpRequestHandler.Pc.clearWrite]
  | writeIdle : w = false → HttpStep c r w .writeComplete r w []
  | clearWrite : HttpStep c r w .clearWrite r false []

section Callback
variable {s : Shared httpRequestHandler} {result : Bool} {c : ConnId} {p : HttpRequestHandler.Pc}
  {a : Act httpRequestHandler} {fs : List (Frame httpRequestHandler)}

theorem exec_http {h : HttpRequestHandler.State} :
    match HttpRequestHandler.exec h p with
    | .ret h' _ => HttpStep c h.isReadWaiting h.isWriteWaiting p h'.isReadWaiting h'.isWriteWaiting []
    | .throw => True
    | .goto h' p' => HttpStep c h.isReadWaiting h.isWriteWaiting p h'.isReadWaiting h'.isWriteWaiting [.callback c p']
    | .write h' content p' =>
      HttpStep c h.isReadWaiting h.isWriteWaiting p h'.isReadWaiting h'.isWriteWaiting
        [.addCache c (.add content), .callback c p'] := by
  cases p with
  | append received =>
    simp only [HttpRequestHandler.exec]
    cases h.httpRequest.append received with
    | ok q => exact .append
    | error e => trivial
  | integrity => exact .integrity
  | readComplete =>
    simp only [HttpRequestHandler.exec]
    cases hr : h.isReadWaiting with
    | true =>
      simp only [if_true, hr]
      exact .readFirst rfl
    | false =>
      simp only [Bool.false_eq_true, if_false, hr]
      exact .readAgain rfl
  | clearRead => exact .clearRead
  | respond => exact .respond
  | setWrite => exact .setWrite
  | writeComplete =>
    simp only [HttpRequestHandler.exec]
    cases hw : h.isWriteWaiting with
    | true =>
      simp only [if_true, hw]
      exact .writeWaited rfl
    | false =>
      simp only [Bool.false_eq_true, if_false, hw]
      exact .writeIdle rfl
  | clearWrite => exact .clearWrite

theorem callback_http (h : FrameStep s result (.callback c p) a fs) :
    ∃ h' r w, a = .setHandler c h' ∧ httpRequestHandler.isReadWaiting h' = r ∧
      httpRequestHandler.isWriteWaiting h' = w ∧ HttpStep c (s.readWaiting c) (s.writeWaiting c) p r w fs := by
  have hexec := exec_http (c := c) (p := p) (h := (s.conn c).handler)
  cases h with
  | @callbackRet _ _ h' v he =>
    rw [show HttpRequestHandler.exec (s.conn c).handler p = .ret h' v from he] at hexec
    exact ⟨h', _, _, rfl, rfl, rfl, hexec⟩
  | @callbackGoto _ _ h' p' he =>
    rw [show HttpRequestHandler.exec (s.conn c).handler p = .goto h' p' from he] at hexec
    exact ⟨h', _, _, rfl, rfl, rfl, hexec⟩
  | @callbackWrite _ _ h' content p' he =>
    rw [show HttpRequestHandler.exec (s.conn c).handler p = .write h' content p' from he] at hexec
    exact ⟨h', _, _, rfl, rfl, rfl, hexec⟩

end Callback

/-- The handler has no threads, so no call comes from it. -/
theorem Call.enter_http {k : Call} {t : Thread httpRequestHandler} (h : k.enter httpRequestHandler = some t) :
    t = ⟨[.newConnection], false⟩ ∨ (∃ r c, t = ⟨[.report r c .getValue], false⟩) ∨ t = ⟨[.shut .test], false⟩ := by
  rcases Call.enter_cases h with ⟨-, ht⟩ | ⟨r, c, -, ht⟩ | ⟨c, content, hno, -, -⟩ | ⟨-, ht⟩
  · exact Or.inl ht
  · exact Or.inr (Or.inl ⟨r, c, ht⟩)
  · cases hno
  · exact Or.inr (Or.inr ht)

section Calls

@[simp] theorem appendReceivedData_http (received : ByteString) :
    httpRequestHandler.appendReceivedData received = HttpRequestHandler.Pc.append received := rfl

@[simp] theorem checkDataIntegrity_http : httpRequestHandler.checkDataIntegrity = HttpRequestHandler.Pc.integrity := rfl

@[simp] theorem readCompleteCallback_http (e : ConnectionErrorCode) :
    httpRequestHandler.readCompleteCallback e = HttpRequestHandler.Pc.readComplete := rfl

@[simp] theorem writeCompleteCallback_http (e : ConnectionErrorCode) :
    httpRequestHandler.writeCompleteCallback e = HttpRequestHandler.Pc.writeComplete := rfl

end Calls

/-- The side whose worker runs a callback. -/
def HttpRequestHandler.Pc.side : HttpRequestHandler.Pc → Side
  | .writeComplete | .clearWrite => .write
  | _ => .read

/-- The side and the connection for which a function, or a callback in it, runs. -/
def Frame.owner : Frame httpRequestHandler → Option (Side × ConnId)
  | .callback c p => some (HttpRequestHandler.Pc.side p, c)
  | f => f.part

theorem Frame.rank_of_owner {f : Frame httpRequestHandler} {x : Side × ConnId} (h : f.owner = some x) :
    2 ≤ f.rank := by
  cases f <;> first | exact Frame.rank_of_part h | simp [Frame.rank]

theorem side_completeCallback (d : Side) (e : ConnectionErrorCode) :
    HttpRequestHandler.Pc.side (completeCallback (R := httpRequestHandler) d e) = d := by
  cases d <;> rfl

theorem FrameStep.owner {s : Shared httpRequestHandler} {result : Bool} {f : Frame httpRequestHandler}
    {a : Act httpRequestHandler} {fs : List (Frame httpRequestHandler)} (h : FrameStep s result f a fs)
    {d : Side} {c : ConnId} : ∀ g ∈ fs, g.owner = some (d, c) → f.owner = some (d, c) ∨ .recheck d c .lock ∈ fs := by
  intro g hg hown
  cases g with
  | callback c' p =>
    cases f with
    | callback c'' p' =>
      obtain ⟨h', r, w, -, -, -, hstep⟩ := callback_http h
      -- A callback keeps its side.
      cases hstep with
      | respond =>
        rcases List.mem_cons.mp hg with hg | hg
        · cases hg
        · cases List.mem_singleton.mp hg
          exact Or.inl hown
      | readFirst =>
        cases List.mem_singleton.mp hg
        exact Or.inl hown
      | clearRead =>
        cases List.mem_singleton.mp hg
        exact Or.inl hown
      | writeWaited =>
        cases List.mem_singleton.mp hg
        exact Or.inl hown
      | _ => cases hg
    | read c'' p' =>
      cases h <;> simp only [List.mem_cons, List.not_mem_nil, Frame.callback.injEq, reduceCtorEq, or_false] at hg <;>
        (obtain ⟨rfl, rfl⟩ := hg; exact Or.inl hown)
    | write c'' p' =>
      cases h <;> simp only [List.mem_cons, List.not_mem_nil, Frame.callback.injEq, reduceCtorEq, or_false] at hg
      obtain ⟨rfl, rfl⟩ := hg
      exact Or.inl hown
    | onError d' c'' p' =>
      cases h <;> simp only [List.mem_cons, List.not_mem_nil, Frame.callback.injEq, reduceCtorEq, or_false] at hg
      obtain ⟨rfl, rfl⟩ := hg
      simp only [Frame.owner, side_completeCallback] at hown
      exact Or.inl hown
    | _ => cases h <;> simp at hg
  | _ =>
    rcases h.part _ hg hown with hpart | hmem
    · refine Or.inl ?_
      cases f <;> first | exact hpart | cases hpart
    · exact Or.inr hmem

theorem companion_owner : Companion (R := httpRequestHandler) fun f g =>
    ∃ d c, f.owner = some (d, c) ∧ g = .recheck d c .lock where
  rank_lt := by
    rintro f g ⟨d, c, hp, rfl⟩
    exact Frame.rank_of_owner hp
  step := by
    rintro s result f a fs h f' hf' g ⟨d, c, hp, rfl⟩
    rcases h.owner f' hf' hp with hpart | hmem
    · exact Or.inl ⟨d, c, hpart, rfl⟩
    · exact Or.inr hmem
  report := by
    rintro r c g ⟨d, c', hp, -⟩
    cases hp
  write := by
    rintro - c content g ⟨d, c', hp, -⟩
    cases hp

/-! ### The response of a connection -/

namespace Frame

/-- The response of `c` is about to be added to the `WriteCache`. -/
def toAdd (c : ConnId) : Frame httpRequestHandler → Nat
  | .callback c' HttpRequestHandler.Pc.respond | .addCache c' (.add _) => if c' = c then 1 else 0
  | _ => 0

/-- `HttpRequestHandler::Write` of `c` has not set `isWriteWaiting` yet. -/
def responding (c : ConnId) : Frame httpRequestHandler → Nat
  | .callback c' HttpRequestHandler.Pc.respond | .callback c' HttpRequestHandler.Pc.setWrite => if c' = c then 1 else 0
  | _ => 0

theorem responding_eq_zero {c : ConnId} {f : Frame httpRequestHandler} (h : ∀ p, f ≠ .callback c p) :
    f.responding c = 0 := by
  unfold responding
  split
  · next c' => exact if_neg fun hc => h HttpRequestHandler.Pc.respond (by rw [hc])
  · next c' => exact if_neg fun hc => h HttpRequestHandler.Pc.setWrite (by rw [hc])
  · rfl

/-- The write worker of `c` moves bytes or runs the callback behind that. -/
def mover (c : ConnId) : Frame httpRequestHandler → Nat
  | .load c' _ | .write c' _ | .callback c' HttpRequestHandler.Pc.writeComplete
  | .callback c' HttpRequestHandler.Pc.clearWrite => if c' = c then 1 else 0
  | _ => 0

theorem mover_of_moves {c : ConnId} {f : Frame httpRequestHandler} (h : f.moves c = true) : f.mover c = 1 := by
  unfold moves at h
  split at h
  · exact if_pos (of_decide_eq_true h)
  · exact if_pos (of_decide_eq_true h)
  · cases h

end Frame

/-- The response of `c` has been added and taken from the `WriteCache`. -/
structure Loaded (s : Shared httpRequestHandler) (c : ConnId) : Prop where
  added : s.added c ≠ []
  cached : s.cached c = []

/-- The response of `c` has been sent. -/
structure Sent (s : Shared httpRequestHandler) (c : ConnId) : Prop where
  added : s.added c ≠ []
  accepted : s.accepted c = s.added c
  response : (s.conn c).response = []

/-- What a function knows about the response of `c`. -/
def Frame.Ok (s : Shared httpRequestHandler) (c : ConnId) : Frame httpRequestHandler → Prop
  | .callback c' HttpRequestHandler.Pc.clearRead => c' = c → s.readWaiting c = true
  | .callback c' HttpRequestHandler.Pc.writeComplete | .callback c' HttpRequestHandler.Pc.clearWrite =>
    c' = c → Loaded s c ∧ (s.conn c).response = []
  | .write c' (.socket _) | .write c' (.store _) => c' = c → Loaded s c
  | .finish d c' p => c' = c → (d = .write → Loaded s c) ∧ (p = .writeWaiting → s.readWaiting c = false)
  | .onError _ c' .argument => c' ≠ c
  | .close c' _ => c' = c → Sent s c
  | _ => True

theorem Loaded.crash {s : Shared httpRequestHandler} {c : ConnId} (h : Loaded s c) :
    Loaded (Act.terminate.apply s) c := ⟨h.added, h.cached⟩

theorem Sent.crash {s : Shared httpRequestHandler} {c : ConnId} (h : Sent s c) :
    Sent (Act.terminate.apply s) c := ⟨h.added, h.accepted, h.response⟩

theorem Frame.Ok.crash {s : Shared httpRequestHandler} {c : ConnId} {f : Frame httpRequestHandler} (h : f.Ok s c) :
    f.Ok (Act.terminate.apply s) c := by
  cases f with
  | callback c' p =>
    cases p with
    | clearRead => exact h
    | writeComplete => exact fun hc => ⟨(h hc).1.crash, (h hc).2⟩
    | clearWrite => exact fun hc => ⟨(h hc).1.crash, (h hc).2⟩
    | _ => trivial
  | write c' p =>
    cases p with
    | socket r => exact fun hc => (h hc).crash
    | store r => exact fun hc => (h hc).crash
    | _ => trivial
  | finish d c' p => exact fun hc => ⟨fun hd => ((h hc).1 hd).crash, (h hc).2⟩
  | onError d c' p =>
    cases p with
    | test => trivial
    | argument => exact h
  | close c' p => exact fun hc => (h hc).crash
  | _ => trivial

/-- The order in which a response is made and sent, without an error. -/
structure Orderly (s : State httpRequestHandler) (c : ConnId) : Prop where
  noError : (s.shared.conn c).errorCode = .noError
  -- The response is added once, after `isReadWaiting` has been cleared.
  once : (s.shared.readWaiting c).toNat + s.count (Frame.toAdd c) + (if s.shared.added c = [] then 0 else 1) ≤ 1
  whole : s.shared.cached c = [] ∨ s.shared.cached c = s.shared.added c
  mover : s.count (Frame.mover c) ≤ 1
  frames : ∀ j f, s.At j f → f.Ok s.shared c
  settled : s.shared.readWaiting c = false → s.shared.writeWaiting c = false →
    0 < s.count (Frame.responding c) ∨ Sent s.shared c
  closed : 0 < s.shared.closes c → Sent s.shared c

section Step
variable {s : Shared httpRequestHandler} {result : Bool} {f : Frame httpRequestHandler}
  {a : Act httpRequestHandler} {fs : List (Frame httpRequestHandler)} {c : ConnId}

theorem FrameStep.once (h : FrameStep s result f a fs)
    (hf : f = .callback c HttpRequestHandler.Pc.clearRead → s.readWaiting c = true) :
    ((a.apply s).readWaiting c).toNat + (fs.map (Frame.toAdd c)).sum + (if (a.apply s).added c = [] then 0 else 1) ≤
      (s.readWaiting c).toNat + f.toAdd c + (if s.added c = [] then 0 else 1) := by
  cases f with
  | callback c' p =>
    obtain ⟨h', r, w, rfl, hr, hw, hstep⟩ := callback_http h
    by_cases hc : c' = c
    · subst hc
      cases hstep with
      | clearRead => simp [Frame.toAdd, hr, hf rfl]
      | _ => simp [Frame.toAdd, hr]
    · cases hstep <;> simp [Frame.toAdd, hc]
  | addCache c' p =>
    cases h with
    | addContent =>
      by_cases hc : c' = c
      · simp only [Act.apply_readWaiting, Act.apply_added, hc, if_true, Frame.toAdd, List.map_cons, List.map_nil,
          List.sum_cons, List.sum_nil]
        split_ifs <;> omega
      · simp [Frame.toAdd, hc]
    | addGetValue => simp [Frame.toAdd]
  | onError d c' p => cases h <;> cases d <;> simp [Frame.toAdd, completeCallback]
  | _ => cases h <;> simp [Frame.toAdd]

theorem FrameStep.mover (h : FrameStep s result f a fs) (hf : f.Ok s c) :
    (fs.map (Frame.mover c)).sum ≤ f.mover c ∨ a = .deQueue .write c := by
  cases f with
  | callback c' p =>
    obtain ⟨h', r, w, rfl, hr, hw, hstep⟩ := callback_http h
    cases hstep <;> simp [Frame.mover]
  | onError d c' p =>
    cases h with
    | errorArgument =>
      have hc : c' ≠ c := hf
      cases d <;> simp [Frame.mover, completeCallback, hc]
    | _ => simp [Frame.mover]
  | worker d p =>
    cases h with
    | @workerWrite c' q hq =>
      by_cases hc : c' = c
      · exact Or.inr (by rw [hc])
      · simp [Frame.mover, hc]
    | _ => simp [Frame.mover]
  | _ => cases h <;> simp [Frame.mover]

theorem FrameStep.flags (h : FrameStep s result f a fs) (c : ConnId) :
    ((∀ p, f ≠ .callback c p) ∧ (a.apply s).readWaiting c = s.readWaiting c ∧
      (a.apply s).writeWaiting c = s.writeWaiting c) ∨
    ∃ p r w, f = .callback c p ∧ (a.apply s).readWaiting c = r ∧ (a.apply s).writeWaiting c = w ∧
      HttpStep c (s.readWaiting c) (s.writeWaiting c) p r w fs := by
  by_cases hf : ∃ p, f = .callback c p
  · obtain ⟨p, rfl⟩ := hf
    obtain ⟨h', r, w, rfl, hr, hw, hstep⟩ := callback_http h
    exact Or.inr ⟨p, r, w, rfl, by simpa using hr, by simpa using hw, hstep⟩
  · refine Or.inl ⟨fun p hp => hf ⟨p, hp⟩, ?_⟩
    cases a with
    | setHandler c' h' =>
      have hc : c' ≠ c := by
        rintro rfl
        cases h <;> exact hf ⟨_, rfl⟩
      simp [hc]
    | _ => simp

/-- `isReadWaiting` is not set again. -/
theorem FrameStep.readWaiting_false (h : FrameStep s result f a fs) (hr : s.readWaiting c = false) :
    (a.apply s).readWaiting c = false := by
  rcases h.flags c with ⟨-, heq, -⟩ | ⟨p, r, w, -, hr', -, hstep⟩
  · rw [heq, hr]
  · rw [hr']
    cases hstep <;> first | exact hr | rfl

theorem FrameStep.readWaiting_true (h : FrameStep s result f a fs) (hr : s.readWaiting c = true) :
    (a.apply s).readWaiting c = true ∨ f = .callback c HttpRequestHandler.Pc.clearRead := by
  rcases h.flags c with ⟨-, heq, -⟩ | ⟨p, r, w, rfl, hr', -, hstep⟩
  · exact Or.inl (by rw [heq, hr])
  · rw [hr']
    cases hstep <;> first | exact Or.inl hr | exact Or.inr rfl

theorem Loaded.step (hl : Loaded s c) (h : FrameStep s result f a fs) (hadd : f.toAdd c = 0) : Loaded (a.apply s) c := by
  obtain ⟨hadded, hcached⟩ := hl
  cases a with
  | addCache c' content =>
    cases h
    have hc : c' ≠ c := by
      rintro rfl
      simp [Frame.toAdd] at hadd
    exact ⟨by simpa [hc] using hadded, by simpa [hc] using hcached⟩
  | getCache c' => exact ⟨by simpa using hadded, by simp [hcached]⟩
  | _ => exact ⟨by simpa using hadded, by simpa using hcached⟩

theorem Sent.step (hs : Sent s c) (h : FrameStep s result f a fs) (hadd : f.toAdd c = 0)
    (hsend : ∀ r, f.sending c = some r → r = []) (hcarry : ∀ r, f.carrying c = some r → r = []) :
    Sent (a.apply s) c := by
  obtain ⟨hadded, haccepted, hresponse⟩ := hs
  cases a with
  | addCache c' content =>
    cases h
    have hc : c' ≠ c := by
      rintro rfl
      simp [Frame.toAdd] at hadd
    exact ⟨by simpa [hc] using hadded, by simpa [hc] using haccepted, by simpa using hresponse⟩
  | writeSocket c' bytes =>
    have hc : c' ≠ c ∨ bytes = [] := by
      by_cases hc : c' = c
      · subst hc
        cases h with
        | @writeAccept _ rest n hne hn => exact absurd (hsend rest (by simp [Frame.sending])) hne
        | writeAgain => exact Or.inr rfl
      · exact Or.inl hc
    rcases hc with hc | rfl
    · exact ⟨by simpa using hadded, by simpa [hc] using haccepted, by simpa using hresponse⟩
    · exact ⟨by simpa using hadded, by simpa using haccepted, by simpa using hresponse⟩
  | setResponse c' content =>
    cases h
    refine ⟨by simpa using hadded, by simpa using haccepted, ?_⟩
    by_cases hc : c' = c
    · subst hc
      simp [hresponse, hcarry content (by simp [Frame.carrying])]
    · simpa [hc] using hresponse
  | store c' rest =>
    refine ⟨by simpa using hadded, by simpa using haccepted, ?_⟩
    by_cases hc : c' = c
    · subst hc
      have : rest = [] := by
        cases h
        · rfl
        · exact hsend rest (by simp [Frame.sending])
      simp [this]
    · simpa [hc] using hresponse
  | _ => exact ⟨by simpa using hadded, by simpa using haccepted, by simpa using hresponse⟩

end Step
/-- The runs in which `errorCode` of `c` stays `NO_ERROR`, and in which a write worker that has sent only a part
    of `response` does not find `IsWaiting()` false before `HttpRequestHandler::Write` has set
    `isWriteWaiting`. -/
def inOrder (c : ConnId) : Rule (Shared httpRequestHandler) (Thread httpRequestHandler) (Act httpRequestHandler) Call where
  step s _ a := (∀ e, a ≠ .setError c e) ∧
    (a = .idle .write c → (s.shared.conn c).response = [] ∨ State.count s (Frame.responding c) = 0)
  call _ := True

section Run
variable {c : ConnId} {closed : Bool} {readers writers : Nat} {s : State httpRequestHandler}
  {i : Nat} {t : Thread httpRequestHandler} {f : Frame httpRequestHandler} {rest fs : List (Frame httpRequestHandler)}
  {a : Act httpRequestHandler} {v : Bool}

namespace Orderly

theorem toAdd_eq_zero (ih : Orderly s c) (hadded : s.shared.added c ≠ []) {j : Nat} {g : Frame httpRequestHandler}
    (hj : s.At j g) : g.toAdd c = 0 := by
  obtain ⟨u, hu, hg⟩ := hj
  have hle := State.le_count (w := Frame.toAdd c) (List.mem_of_getElem? hu) hg
  have honce := ih.once
  rw [if_neg hadded] at honce
  omega

theorem added_of_toAdd (ih : Orderly s c) {j : Nat} {g : Frame httpRequestHandler} (hj : s.At j g)
    (hg : g.toAdd c = 1) : s.shared.added c = [] := by
  by_contra hne
  have := ih.toAdd_eq_zero hne hj
  omega

theorem sent_step (ih : Orderly s c)
    (hr : Reach (manager httpRequestHandler) (inOrder c) (start httpRequestHandler closed readers writers) s)
    (hi : s.threads[i]? = some t) (ht : t.frames = f :: rest) (hf : FrameStep s.shared t.result f a fs)
    (hs : Sent s.shared c) : Sent (a.apply s.shared) c := by
  have hhead := State.at_head hi ht
  have hcons := conserved hr c
  refine hs.step hf (ih.toAdd_eq_zero hs.added hhead) ?_ ?_
  · intro r hr
    have := hcons.sending i f r hhead hr
    rw [hs.accepted, List.append_assoc] at this
    exact (List.append_eq_nil_iff.mp (List.self_eq_append_right.mp this)).1
  · intro r hr
    have := hcons.carrying i f r hhead hr
    rw [hs.accepted, hs.response, List.append_nil, List.append_assoc] at this
    exact (List.append_eq_nil_iff.mp (List.self_eq_append_right.mp this)).1

theorem balance_callback (ih : Orderly s c)
    (hr : Reach (manager httpRequestHandler) (inOrder c) (start httpRequestHandler closed readers writers) s)
    (hi : s.threads[i]? = some t) (ht : t.frames = f :: rest) (hm : f.mover c = 1) (hno : f.moves c = false) :
    s.shared.added c = s.shared.accepted c ++ (s.shared.conn c).response ++ s.shared.cached c := by
  refine (conserved hr c).neither fun j g hj => Frame.not_moves ?_
  rcases State.at_cases hi ht hj with rfl | hrest
  · exact hno
  · have hle := State.add_le_count (w := Frame.mover c) hi ht hj hrest
    have hone := ih.mover
    cases hg : g.moves c with
    | false => rfl
    | true =>
      have hmover := Frame.mover_of_moves hg
      omega

theorem balance_finish
    (hr : Reach (manager httpRequestHandler) (inOrder c) (start httpRequestHandler closed readers writers) s)
    {p : FinishPc} (hi : s.At i (.finish .write c p)) :
    s.shared.added c = s.shared.accepted c ++ (s.shared.conn c).response ++ s.shared.cached c := by
  refine (conserved hr c).neither fun j g hj => Frame.not_moves ?_
  cases hg : g.moves c with
  | false => rfl
  | true =>
    obtain ⟨hp, hrank⟩ := Frame.part_of_moves hg
    obtain ⟨-, rfl⟩ := part_unique hr hj hi hp rfl hrank
    cases hg

theorem responding_eq_zero
    (hr : Reach (manager httpRequestHandler) (inOrder c) (start httpRequestHandler closed readers writers) s)
    {p : FinishPc} (hi : s.threads[i]? = some t) (ht : t.frames = .finish .read c p :: rest) :
    s.count (Frame.responding c) = 0 := by
  by_contra hne
  obtain ⟨u, hu, g, hg, hpos⟩ := State.count_pos.mp (Nat.pos_of_ne_zero hne)
  obtain ⟨j, hj⟩ := List.getElem?_of_mem hu
  have hat : s.At j g := ⟨u, hj, hg⟩
  have hown : g.owner = some (.read, c) ∧ g.rank = 5 := by
    unfold Frame.responding at hpos
    split at hpos <;> first | (split at hpos <;> simp_all [Frame.owner, Frame.rank, HttpRequestHandler.Pc.side]) | omega
  have hhead := State.at_head hi ht
  have hij := thread_of_holds hr (companion_owner.at_of_at hr hhead ⟨.read, c, rfl, rfl⟩)
    (companion_owner.at_of_at hr hat ⟨.read, c, hown.1, rfl⟩)
  subst hij
  have hle := rank_le_head hr hi ht hat
  rw [hown.2] at hle
  simp [Frame.rank] at hle

/-- The callback that clears `isReadWaiting` is the only one of the read worker. -/
theorem clearRead_unique
    {rule : Rule (Shared httpRequestHandler) (Thread httpRequestHandler) (Act httpRequestHandler) Call}
    (hr : Reach (manager httpRequestHandler) rule (start httpRequestHandler closed readers writers) s)
    (hi : s.threads[i]? = some t) (ht : t.frames = .callback c HttpRequestHandler.Pc.clearRead :: rest)
    {j : Nat} (hj : s.At j (.callback c HttpRequestHandler.Pc.clearRead))
    (hrest : j = i → .callback c HttpRequestHandler.Pc.clearRead ∈ rest) : False := by
  have hij := thread_of_holds hr (companion_owner.at_of_at hr (State.at_head hi ht) ⟨.read, c, rfl, rfl⟩)
    (companion_owner.at_of_at hr hj ⟨.read, c, rfl, rfl⟩)
  have hsorted : Sorted (.callback c HttpRequestHandler.Pc.clearRead :: rest) :=
    ht ▸ sorted hr t (List.mem_of_getElem? hi)
  exact absurd (hsorted.rank_lt (hrest hij.symm)) (Nat.lt_irrefl _)

theorem response_callback (ih : Orderly s c) (hi : s.threads[i]? = some t) (ht : t.frames = f :: rest)
    (hf : FrameStep s.shared t.result f a fs) {j : Nat} {g : Frame httpRequestHandler} (hj : s.At j g)
    (hrest : j = i → g ∈ rest) (hg : g.mover c = 1) (hresponse : (s.shared.conn c).response = []) :
    ((a.apply s.shared).conn c).response = [] := by
  have hle := State.add_le_count (w := Frame.mover c) hi ht hj hrest
  have hone := ih.mover
  have hzero : f.mover c = 0 := by omega
  cases a with
  | setResponse c' content =>
    cases hf
    have hc : c' ≠ c := by
      rintro rfl
      simp [Frame.mover] at hzero
    simpa [hc] using hresponse
  | store c' r =>
    have hc : c' ≠ c := by
      rintro rfl
      cases hf <;> simp [Frame.mover] at hzero
    simpa [hc] using hresponse
  | _ => simpa using hresponse

/-- What a function knows stays true while other functions take steps. -/
theorem old_frame (ih : Orderly s c)
    (hr : Reach (manager httpRequestHandler) (inOrder c) (start httpRequestHandler closed readers writers) s)
    (hi : s.threads[i]? = some t) (ht : t.frames = f :: rest) (hf : FrameStep s.shared t.result f a fs) {j : Nat}
    {g : Frame httpRequestHandler} (hj : s.At j g) (hrest : j = i → g ∈ rest) : g.Ok (a.apply s.shared) c := by
  have hok := ih.frames j g hj
  have hhead := State.at_head hi ht
  have hloaded : Loaded s.shared c → Loaded (a.apply s.shared) c := fun hl =>
    hl.step hf (ih.toAdd_eq_zero hl.added hhead)
  cases g with
  | callback c' p =>
    cases p with
    | clearRead =>
      rintro rfl
      rcases hf.readWaiting_true (hok rfl) with hw | rfl
      · exact hw
      · exact (clearRead_unique hr hi ht hj hrest).elim
    | writeComplete =>
      rintro rfl
      obtain ⟨hl, hresponse⟩ := hok rfl
      exact ⟨hloaded hl, ih.response_callback hi ht hf hj hrest (by simp [Frame.mover]) hresponse⟩
    | clearWrite =>
      rintro rfl
      obtain ⟨hl, hresponse⟩ := hok rfl
      exact ⟨hloaded hl, ih.response_callback hi ht hf hj hrest (by simp [Frame.mover]) hresponse⟩
    | _ => trivial
  | write c' p =>
    cases p with
    | socket r => exact fun hc => hloaded (hok hc)
    | store r => exact fun hc => hloaded (hok hc)
    | _ => trivial
  | finish d c' p => exact fun hc => ⟨fun hd => hloaded ((hok hc).1 hd), fun hp => hf.readWaiting_false ((hok hc).2 hp)⟩
  | onError d c' p =>
    cases p with
    | test => trivial
    | argument => exact hok
  | close c' p => exact fun hc => ih.sent_step hr hi ht hf (hok hc)
  | _ => trivial

/-- A worker that closes the connection knows that the response has been sent. -/
theorem sent_of_idle (ih : Orderly s c)
    (hr : Reach (manager httpRequestHandler) (inOrder c) (start httpRequestHandler closed readers writers) s)
    {d : Side} (hi : s.threads[i]? = some t) (ht : t.frames = .finish d c .writeWaiting :: rest)
    (hw : s.shared.writeWaiting c = false)
    (hidle : d = .write → (s.shared.conn c).response = [] ∨ s.count (Frame.responding c) = 0) : Sent s.shared c := by
  have hhead := State.at_head hi ht
  obtain ⟨hl, hread⟩ := ih.frames i _ hhead rfl
  have hsettled : s.count (Frame.responding c) = 0 → Sent s.shared c := by
    intro hzero
    rcases ih.settled (hread rfl) hw with hpos | hs
    · exact absurd hpos (by omega)
    · exact hs
  cases d with
  | read => exact hsettled (responding_eq_zero hr hi ht)
  | write =>
    rcases hidle rfl with hresponse | hzero
    · have hb := balance_finish hr hhead
      rw [hresponse, (hl rfl).cached, List.append_nil, List.append_nil] at hb
      exact ⟨(hl rfl).added, hb.symm, hresponse⟩
    · exact hsettled hzero

theorem loaded_of_begin (ih : Orderly s c)
    (hr : Reach (manager httpRequestHandler) (inOrder c) (start httpRequestHandler closed readers writers) s)
    (hi : s.At i (.write c .empty)) (hne : (s.shared.conn c).response ≠ []) : Loaded s.shared c := by
  have hb := (conserved hr c).balance hr hi (by simp [Frame.moves])
  simp only [Frame.sending, Frame.carrying, Option.getD_none, List.append_nil] at hb
  refine ⟨?_, ?_⟩
  · rw [hb]
    simp [hne]
  · rcases ih.whole with hnil | hall
    · exact hnil
    · rw [hall] at hb
      have hnil := List.self_eq_append_left.mp hb
      exact absurd (List.append_eq_nil_iff.mp hnil).2 hne

/-- What the functions that replace one know. -/
theorem new_frame (ih : Orderly s c)
    (hr : Reach (manager httpRequestHandler) (inOrder c) (start httpRequestHandler closed readers writers) s)
    (hi : s.threads[i]? = some t) (ht : t.frames = f :: rest) (hf : FrameStep s.shared t.result f a fs)
    (hidle : a = .idle .write c → (s.shared.conn c).response = [] ∨ s.count (Frame.responding c) = 0) :
    ∀ g ∈ fs, g.Ok (a.apply s.shared) c := by
  have hhead := State.at_head hi ht
  have hok := ih.frames i f hhead
  have hloaded : Loaded s.shared c → Loaded (a.apply s.shared) c := fun hl =>
    hl.step hf (ih.toAdd_eq_zero hl.added hhead)
  cases f with
  | callback c' p =>
    obtain ⟨h', r, w, rfl, hr', hw', hstep⟩ := callback_http hf
    cases hstep with
    | readFirst hread =>
      intro g hg
      rw [List.mem_singleton.mp hg]
      rintro rfl
      simp [hr', hread]
    | writeWaited hwrite =>
      intro g hg
      rw [List.mem_singleton.mp hg]
      rintro rfl
      obtain ⟨hl, hresponse⟩ := hok rfl
      exact ⟨hloaded hl, by simpa using hresponse⟩
    | _ => simp [Frame.Ok]
  | write c' p =>
    cases hf with
    | writeBegin hne =>
      intro g hg
      rw [List.mem_singleton.mp hg]
      rintro rfl
      exact hloaded (ih.loaded_of_begin hr hhead hne)
    | writeSent =>
      intro g hg
      rw [List.mem_singleton.mp hg]
      exact fun hc => hloaded (hok hc)
    | writeAccept =>
      intro g hg
      rw [List.mem_singleton.mp hg]
      exact fun hc => hloaded (hok hc)
    | writeAgain =>
      intro g hg
      rw [List.mem_singleton.mp hg]
      exact fun hc => hloaded (hok hc)
    | writeAll =>
      intro g hg
      rcases List.mem_cons.mp hg with rfl | hg
      · rintro rfl
        exact ⟨hloaded (hok rfl), by simp⟩
      · rw [List.mem_singleton.mp hg]
        exact fun hc => ⟨fun _ => hloaded (hok hc), fun hp => by cases hp⟩
    | writeRest =>
      intro g hg
      rw [List.mem_singleton.mp hg]
      exact fun hc => ⟨fun _ => hloaded (hok hc), fun hp => by cases hp⟩
    | _ => simp [Frame.Ok]
  | finish d c' p =>
    cases hf with
    | finishNotRead hread =>
      intro g hg
      rw [List.mem_singleton.mp hg]
      rintro rfl
      exact ⟨fun hd => (hok rfl).1 hd, fun _ => hread⟩
    | finishIdle hwrite =>
      intro g hg
      rw [List.mem_singleton.mp hg]
      rintro rfl
      exact ih.sent_of_idle hr hi ht hwrite fun hd => hidle (by rw [hd])
    | _ => simp
  | onError d c' p =>
    cases hf with
    | errorNone => simp
    | errorSome herror =>
      intro g hg
      rw [List.mem_singleton.mp hg]
      rintro rfl
      exact herror ih.noError
    | errorArgument =>
      have hc : c' ≠ c := hok
      cases d <;> simp [Frame.Ok, completeCallback, hc]
  | close c' p =>
    have hsent := ih.sent_step hr hi ht hf
    have hclose : ∀ g ∈ fs, ∃ p', g = .close c' p' := by cases hf <;> simp
    intro g hg
    obtain ⟨p', rfl⟩ := hclose g hg
    exact fun hc => hsent (hok hc)
  | _ =>
    cases hf <;> first
      | exact List.forall_mem_singleton.mpr trivial
      | simp [Frame.Ok]

/-- With both flags cleared the response has been sent, unless its callback is still to set the second one. -/
theorem settled_step (ih : Orderly s c)
    (hr : Reach (manager httpRequestHandler) (inOrder c) (start httpRequestHandler closed readers writers) s)
    (hi : s.threads[i]? = some t) (ht : t.frames = f :: rest) (hf : FrameStep s.shared t.result f a fs)
    (hread : (a.apply s.shared).readWaiting c = false) (hwrite : (a.apply s.shared).writeWaiting c = false) :
    0 < State.count ⟨a.apply s.shared, s.threads.set i ⟨fs ++ rest, v⟩⟩ (Frame.responding c) ∨
      Sent (a.apply s.shared) c := by
  have hcount := State.count_frame (Frame.responding c) (a.apply s.shared) fs v hi ht
  have hle := State.le_count (w := Frame.responding c) (List.mem_of_getElem? hi) (ht ▸ List.mem_cons_self)
  -- With the flags as before and as many callbacks, nothing has changed.
  have hsame : s.shared.readWaiting c = false → s.shared.writeWaiting c = false →
      f.responding c ≤ (fs.map (Frame.responding c)).sum →
      0 < State.count ⟨a.apply s.shared, s.threads.set i ⟨fs ++ rest, v⟩⟩ (Frame.responding c) ∨
        Sent (a.apply s.shared) c := by
    intro hread hwrite hsum
    rcases ih.settled hread hwrite with hpos | hs
    · exact Or.inl (by omega)
    · exact Or.inr (ih.sent_step hr hi ht hf hs)
  rcases hf.flags c with ⟨hno, hr', hw'⟩ | ⟨p, r, w, rfl, hr', hw', hstep⟩
  · refine hsame (hr' ▸ hread) (hw' ▸ hwrite) ?_
    rw [Frame.responding_eq_zero hno]
    exact Nat.zero_le _
  · rw [hr'] at hread
    rw [hw'] at hwrite
    cases hstep with
    | clearRead =>
      have hone : ([.callback c HttpRequestHandler.Pc.respond].map (Frame.responding c)).sum = 1 := by
        simp [Frame.responding]
      exact Or.inl (by omega)
    | respond => exact hsame hread hwrite (by simp [Frame.responding])
    | setWrite => cases hwrite
    | clearWrite =>
      refine Or.inr (ih.sent_step hr hi ht hf ?_)
      obtain ⟨hl, hresponse⟩ := ih.frames i _ (State.at_head hi ht) rfl
      have hb := ih.balance_callback hr hi ht (by simp [Frame.mover]) rfl
      rw [hresponse, hl.cached, List.append_nil, List.append_nil] at hb
      exact ⟨hl.added, hb.symm, hresponse⟩
    | _ => exact hsame hread hwrite (by simp [Frame.responding])

theorem mover_step (ih : Orderly s c)
    (hr : Reach (manager httpRequestHandler) (inOrder c) (start httpRequestHandler closed readers writers) s)
    (hi : s.threads[i]? = some t) (ht : t.frames = f :: rest) (hf : FrameStep s.shared t.result f a fs) :
    State.count ⟨a.apply s.shared, s.threads.set i ⟨fs ++ rest, v⟩⟩ (Frame.mover c) ≤ 1 := by
  have hcount := State.count_frame (Frame.mover c) (a.apply s.shared) fs v hi ht
  have hone := ih.mover
  rcases hf.mover (ih.frames i f (State.at_head hi ht)) with hle | rfl
  · omega
  · -- The connection comes from the queue, so no worker had it.
    have hzero : s.count (Frame.mover c) = 0 := by
      by_contra hne
      obtain ⟨u, hu, g, hg, hpos⟩ := State.count_pos.mp (Nat.pos_of_ne_zero hne)
      have hown : g.owner = some (.write, c) := by
        unfold Frame.mover at hpos
        split at hpos <;>
          first | (split at hpos <;> simp_all [Frame.owner, Frame.part, HttpRequestHandler.Pc.side]) | omega
      have hmem := companion_owner.mem_frames hr u hu g hg _ ⟨.write, c, hown, rfl⟩
      have hle := State.le_count (w := ticket .write c) hu hmem
      have hticket := ticket_eq hr .write c
      have hbusy := Bool.toNat_le ((s.shared.conn c).busy .write)
      cases hf with
      | workerWrite hq =>
        rw [hq, List.count_cons_self] at hticket
        simp only [ticket, Frame.holds, Frame.enlists, and_self, if_true] at hle
        omega
    cases hf with
    | workerWrite hq =>
      simp only [Frame.mover, List.map_cons, List.map_nil, List.sum_cons, List.sum_nil, if_true] at hcount
      omega

theorem whole_step (ih : Orderly s c) (hi : s.threads[i]? = some t) (ht : t.frames = f :: rest)
    (hf : FrameStep s.shared t.result f a fs) :
    (a.apply s.shared).cached c = [] ∨ (a.apply s.shared).cached c = (a.apply s.shared).added c := by
  cases a with
  | addCache c' content =>
    by_cases hc : c' = c
    · subst hc
      cases hf
      have hadded := ih.added_of_toAdd (State.at_head hi ht) (by simp [Frame.toAdd])
      have hcached : s.shared.cached c' = [] := by
        rcases ih.whole with hnil | hall
        · exact hnil
        · rw [hall, hadded]
      exact Or.inr (by simp [hadded, hcached])
    · simpa [hc] using ih.whole
  | getCache c' =>
    by_cases hc : c' = c
    · exact Or.inl (by simp [hc])
    · simpa [hc] using ih.whole
  | _ => simpa using ih.whole

theorem closed_step (ih : Orderly s c)
    (hr : Reach (manager httpRequestHandler) (inOrder c) (start httpRequestHandler closed readers writers) s)
    (hi : s.threads[i]? = some t) (ht : t.frames = f :: rest) (hf : FrameStep s.shared t.result f a fs)
    (hpos : 0 < (a.apply s.shared).closes c) : Sent (a.apply s.shared) c := by
  refine ih.sent_step hr hi ht hf ?_
  cases a with
  | close c' =>
    by_cases hc : c' = c
    · subst hc
      cases hf
      exact ih.frames i _ (State.at_head hi ht) rfl
    · exact ih.closed (by simpa [hc] using hpos)
  | _ => exact ih.closed (by simpa using hpos)

theorem step (ih : Orderly s c)
    (hr : Reach (manager httpRequestHandler) (inOrder c) (start httpRequestHandler closed readers writers) s)
    (hi : s.threads[i]? = some t) (ht : t.frames = f :: rest) (hf : FrameStep s.shared t.result f a fs)
    (hok : (inOrder c).step s t a) : Orderly ⟨a.apply s.shared, s.threads.set i ⟨fs ++ rest, v⟩⟩ c where
  noError := by
    cases a with
    | setError c' e =>
      have hc : c' ≠ c := fun hc => hok.1 e (by rw [hc])
      simpa [hc] using ih.noError
    | _ => simpa using ih.noError
  once := by
    have hcount := State.count_frame (Frame.toAdd c) (a.apply s.shared) fs v hi ht
    have hok := ih.frames i f (State.at_head hi ht)
    have hstep := hf.once (c := c) (by rintro rfl; exact hok rfl)
    have honce := ih.once
    show ((a.apply s.shared).readWaiting c).toNat + _ + (if (a.apply s.shared).added c = [] then 0 else 1) ≤ 1
    omega
  whole := ih.whole_step hi ht hf
  mover := ih.mover_step hr hi ht hf
  frames := by
    intro j g hj
    rcases State.at_frame hi ht hj with ⟨hg, -⟩ | ⟨hj, hrest⟩
    · exact ih.new_frame hr hi ht hf hok.2 g hg
    · exact ih.old_frame hr hi ht hf hj hrest
  settled := ih.settled_step hr hi ht hf
  closed := ih.closed_step hr hi ht hf

end Orderly

theorem orderly
    (hr : Reach (manager httpRequestHandler) (inOrder c) (start httpRequestHandler closed readers writers) s) :
    Orderly s c := by
  refine reach_invariant (P := fun s => Orderly s c) ?_ (fun hr ih hi ht hf hok => ih.step hr hi ht hf hok) ?_ ?_ ?_ hr
  · refine ⟨rfl, ?_, Or.inl rfl, ?_, ?_, (fun hno => Bool.noConfusion hno), (fun hno => absurd hno (Nat.lt_irrefl 0))⟩
    · rw [State.count_start fun d => rfl]
      exact Nat.le_refl 1
    · rw [State.count_start fun d => rfl]
      exact Nat.zero_le 1
    · intro j f hj
      obtain ⟨d, rfl⟩ := State.at_start hj
      trivial
  · intro s ih
    exact ⟨ih.noError, ih.once, ih.whole, ih.mover, fun j f hj => (ih.frames j f hj).crash,
      fun hread hwrite => (ih.settled hread hwrite).imp id Sent.crash, fun hpos => (ih.closed hpos).crash⟩
  · intro s i t c' v hr ih hi ht
    exact (not_caught rfl hr hi ht).elim
  · intro s k t ih hk _
    obtain ⟨hadd, hmover, hresp, hframes⟩ : t.sum (Frame.toAdd c) = 0 ∧ t.sum (Frame.mover c) = 0 ∧
        t.sum (Frame.responding c) = 0 ∧ ∀ g ∈ t.frames, g.Ok s.shared c := by
      rcases Call.enter_http hk with rfl | ⟨r, c', rfl⟩ | rfl <;>
        simp [Thread.sum, Frame.toAdd, Frame.mover, Frame.responding, Frame.Ok]
    refine ⟨ih.noError, ?_, ih.whole, ?_, ?_, ?_, ih.closed⟩
    · rw [State.count_enter, hadd]
      exact ih.once
    · rw [State.count_enter, hmover]
      exact ih.mover
    · intro j g hj
      exact (State.at_enter hj).elim (ih.frames j g) (hframes g)
    · rw [State.count_enter, hresp]
      exact ih.settled

end Run

/-! ### No truncated response -/

/-- Whenever `Close` of `c` is next, after its request was completely received, nothing is left to send. -/
def ClosesWhenSent (s : State httpRequestHandler) (c : ConnId) : Prop :=
  ∀ t ∈ s.threads, ∀ rest, t.frames = .close c .start :: rest →
    HttpRequest.allReceived (HttpRequestHandler.State.httpRequest (s.shared.conn c).handler) = true →
    s.shared.accepted c = s.shared.added c ∧ (s.shared.conn c).response = [] ∧ s.shared.cached c = [] ∧
      s.carrying c = [] ∧ (s.sending c).getD [] = []

/-- A response is not truncated if `HttpRequestHandler::Write` sets `isWriteWaiting` before the write worker,
    with a part of the response unsent, asks for it. -/
theorem response_not_truncated (closed : Bool) (readers writers : Nat) (c : ConnId) (s : State httpRequestHandler)
    (h : Reach (manager httpRequestHandler) (inOrder c) (start httpRequestHandler closed readers writers) s) :
    ClosesWhenSent s c := by
  intro t ht rest hframes _
  obtain ⟨i, hi⟩ := List.getElem?_of_mem ht
  have hs : Sent s.shared c := (orderly h).frames i _ (State.at_head hi hframes) rfl
  have hb := bytes_conserved_any h c
  rw [hs.response, hs.accepted, List.append_assoc, List.append_assoc] at hb
  obtain ⟨hsend, hrest⟩ := List.append_eq_nil_iff.mp (List.self_eq_append_right.mp hb)
  obtain ⟨hcarry, hcached⟩ := List.append_eq_nil_iff.mp hrest
  exact ⟨hs.accepted, hs.response, hcached, hcarry, hsend⟩

/-- The action sets `isError`. -/
def Act.setsError : Act httpRequestHandler → Bool
  | .setError _ _ => true
  | _ => false

/-- A worker of side `d` finds `IsWaiting()` false. -/
def Act.stops (d : Side) : Act httpRequestHandler → Bool
  | .idle d' _ => d' = d
  | _ => false

/-- `Connection::Close` of `c` is called. -/
def Frame.startsClose (c : ConnId) : Frame httpRequestHandler → Bool
  | .close c' .start => c' = c
  | _ => false

theorem Frame.eq_of_startsClose {f : Frame httpRequestHandler} (h : f.startsClose c = true) : f = .close c .start := by
  unfold Frame.startsClose at h
  split at h
  · rw [of_decide_eq_true h]
  · cases h

/-- The writer closes the connection after its last `write()`. -/
theorem response_not_truncated_sent : ∃ s : State httpRequestHandler,
    Reach (manager httpRequestHandler) (inOrder 1) (start httpRequestHandler false 1 1) s ∧
    (∃ t ∈ s.threads, ∃ rest, t.frames = .close 1 .start :: rest) ∧ ClosesWhenSent s 1 := by
  have hrun : ((manager httpRequestHandler).exec
      (fun s _ a => !a.setsError && (!a.stops .write || (s.shared.conn 1).response = [])) (fun _ => true)
      (start httpRequestHandler false 1 1) [responseLoaded, [.run 1 (.accepted 45)], go 1 6].flatten).any
      (fun s => s.threads.any (Thread.next (Frame.startsClose 1))) = true := by decide
  obtain ⟨s, hs, hp⟩ := Reach.exists_of_exec (inOrder 1)
    (by
      intro s t a hstep
      refine ⟨?_, ?_⟩
      · rintro e rfl
        cases hstep
      · rintro rfl
        exact Or.inl (of_decide_eq_true (Bool.and_eq_true_iff.mp hstep).2))
    (fun _ _ => trivial) hrun
  obtain ⟨t, ht, hclose⟩ := List.any_eq_true.mp hp
  obtain ⟨f, rest, heq, hclose⟩ := Thread.next_iff.mp hclose
  rw [Frame.eq_of_startsClose hclose] at heq
  exact ⟨s, hs, ⟨t, ht, rest, heq⟩, response_not_truncated false 1 1 1 s hs⟩

/-- The runs in which `errorCode` of `c` stays `NO_ERROR`. -/
def errorFree (c : ConnId) : Rule (Shared httpRequestHandler) (Thread httpRequestHandler) (Act httpRequestHandler) Call where
  step _ _ a := ∀ e, a ≠ .setError c e
  call _ := True

/-- After a short write the writer closes the connection, because `isWriteWaiting` is not set yet. -/
theorem response_truncated : ¬∀ (closed : Bool) (readers writers : Nat) (c : ConnId) (s : State httpRequestHandler),
    Reach (manager httpRequestHandler) (errorFree c) (start httpRequestHandler closed readers writers) s →
    ClosesWhenSent s c := by
  intro hall
  have hrun : ((manager httpRequestHandler).exec
      (fun _ _ a => !a.setsError) (fun _ => true) (start httpRequestHandler false 1 1)
      [responseAdded, go 1 10, [.run 1 (.accepted 3), .run 1 .again], go 1 3].flatten).any
      (fun s : State httpRequestHandler =>
        HttpRequest.allReceived (HttpRequestHandler.State.httpRequest (s.shared.conn 1).handler) = true ∧
        (s.shared.conn 1).response ≠ [] ∧
        s.threads.any (Thread.next (Frame.startsClose 1))) = true := by decide
  obtain ⟨s, hs, hp⟩ := Reach.exists_of_exec (errorFree 1)
    (by rintro s t a hstep e rfl; cases hstep) (fun _ _ => trivial) hrun
  obtain ⟨hreceived, hresponse, hclose⟩ := of_decide_eq_true hp
  obtain ⟨t, ht, hclose⟩ := List.any_eq_true.mp hclose
  obtain ⟨f, rest, heq, hclose⟩ := Thread.next_iff.mp hclose
  rw [Frame.eq_of_startsClose hclose] at heq
  exact hresponse (hall false 1 1 1 s hs t ht rest heq hreceived).2.1

/-! ### One close -/

/-- The runs in which, beyond that, no read worker finds `IsWaiting()` of `c` false. -/
def leftToWriter (c : ConnId) : Rule (Shared httpRequestHandler) (Thread httpRequestHandler) (Act httpRequestHandler) Call where
  step s t a := (inOrder c).step s t a ∧ a ≠ .idle .read c
  call _ := True

/-- The functions that lead the write worker of `c` to `Close`, up to its start. -/
def Frame.closing (c : ConnId) : Frame httpRequestHandler → Nat
  | .write c' (.socket _) | .write c' (.store _) | .finish .write c' _ | .close c' .start => if c' = c then 1 else 0
  | _ => 0

theorem FrameStep.closing {s : Shared httpRequestHandler} {result : Bool} {f : Frame httpRequestHandler}
    {a : Act httpRequestHandler} {fs : List (Frame httpRequestHandler)} {c : ConnId} (h : FrameStep s result f a fs)
    (hf : f.Ok s c) (ha : a ≠ .idle .read c) :
    (a.apply s).closes c + (fs.map (Frame.closing c)).sum ≤ s.closes c + f.closing c ∨
      f = .write c .empty ∧ (s.conn c).response ≠ [] ∧
        (a.apply s).closes c = s.closes c ∧ (fs.map (Frame.closing c)).sum = 1 := by
  cases f with
  | write c' p =>
    cases h with
    | writeBegin hne =>
      by_cases hc : c' = c
      · subst hc
        exact Or.inr ⟨rfl, hne, by simp, by simp [Frame.closing]⟩
      · simp [Frame.closing, hc]
    | _ => simp [Frame.closing]
  | finish d c' p =>
    cases h with
    | finishIdle hw =>
      cases d with
      | read =>
        have hc : c' ≠ c := by
          rintro rfl
          exact ha rfl
        simp [Frame.closing, hc]
      | write => simp [Frame.closing]
    | finishNotRead => cases d <;> simp [Frame.closing]
    | _ => simp [Frame.closing]
  | onError d c' p =>
    cases h with
    | errorArgument =>
      have hc : c' ≠ c := hf
      simp [Frame.closing, hc]
    | _ => simp [Frame.closing]
  | close c' p =>
    cases h with
    | closeStart => by_cases hc : c' = c <;> simp [Frame.closing, hc]
    | _ => simp [Frame.closing]
  | worker d p => cases h <;> simp [Frame.closing]
  | _ => cases h <;> simp [Frame.closing]

section Run
variable {c : ConnId} {closed : Bool} {readers writers : Nat} {s : State httpRequestHandler}

theorem inOrder_of_leftToWriter
    (h : Reach (manager httpRequestHandler) (leftToWriter c) (start httpRequestHandler closed readers writers) s) :
    Reach (manager httpRequestHandler) (inOrder c) (start httpRequestHandler closed readers writers) s :=
  h.mono (fun _ _ _ (hstep : _ ∧ _) => hstep.1) (fun _ _ => trivial)

theorem closing_eq_zero
    (h : Reach (manager httpRequestHandler) (inOrder c) (start httpRequestHandler closed readers writers) s)
    {i : Nat} (hi : s.At i (.write c .empty)) (hne : (s.shared.conn c).response ≠ []) :
    s.shared.closes c = 0 ∧ s.count (Frame.closing c) = 0 := by
  have ho := orderly h
  refine ⟨?_, ?_⟩
  · by_contra hpos
    exact hne (ho.closed (Nat.pos_of_ne_zero hpos)).response
  · by_contra hpos
    obtain ⟨u, hu, g, hg, hgpos⟩ := State.count_pos.mp (Nat.pos_of_ne_zero hpos)
    obtain ⟨j, hj⟩ := List.getElem?_of_mem hu
    have hat : s.At j g := ⟨u, hj, hg⟩
    have hok := ho.frames j g hat
    unfold Frame.closing at hgpos
    split at hgpos
    · next c' r =>
      split at hgpos
      · next hc =>
        subst hc
        obtain ⟨-, heq⟩ := part_unique h hat hi (d := .write) rfl rfl rfl
        cases heq
      · omega
    · next c' r =>
      split at hgpos
      · next hc =>
        subst hc
        obtain ⟨-, heq⟩ := part_unique h hat hi (d := .write) rfl rfl rfl
        cases heq
      · omega
    · next c' p =>
      split at hgpos
      · next hc =>
        subst hc
        obtain ⟨-, heq⟩ := part_unique h hat hi (d := .write) rfl rfl rfl
        cases heq
      · omega
    · next c' =>
      split at hgpos
      · next hc => exact hne (hok hc).response
      · omega
    · omega

/-- A close that is done and the one that a worker is on its way to are one. -/
theorem closing_le_one
    (h : Reach (manager httpRequestHandler) (leftToWriter c) (start httpRequestHandler closed readers writers) s) :
    s.shared.closes c + s.count (Frame.closing c) ≤ 1 := by
  have hinner : Inner (Frame.closing c) := ⟨fun _ => rfl, rfl, fun _ _ => rfl, fun _ _ => rfl, rfl, rfl⟩
  refine reach_invariant (P := fun s => s.shared.closes c + s.count (Frame.closing c) ≤ 1) ?_ ?_ (fun h => h) ?_ ?_ h
  · rw [hinner.count_start]
    exact Nat.zero_le 1
  · intro s i t f rest fs a v hr ih hi ht hf hok
    have hr' := inOrder_of_leftToWriter hr
    have hcount := State.count_frame (Frame.closing c) (a.apply s.shared) fs v hi ht
    have hhead := State.at_head hi ht
    show (a.apply s.shared).closes c + _ ≤ 1
    rcases hf.closing ((orderly hr').frames i f hhead) hok.2 with hle | ⟨rfl, hne, hcloses, hsum⟩
    · omega
    · obtain ⟨hzero, hnone⟩ := closing_eq_zero hr' hhead hne
      omega
  · intro s i t c' v _ ih hi ht
    rw [hinner.count_caught hi ht]
    exact ih
  · intro s k t ih hk _
    rw [hinner.count_enter s hk]
    exact ih

end Run

/-- A connection is closed at most once if only its write worker finds `IsWaiting()` false, and that in order. -/
theorem closed_once (closed : Bool) (readers writers : Nat) (c : ConnId) (s : State httpRequestHandler)
    (h : Reach (manager httpRequestHandler) (leftToWriter c) (start httpRequestHandler closed readers writers) s) :
    s.shared.closes c ≤ 1 :=
  Nat.le_trans (Nat.le_add_right _ _) (closing_le_one h)

/-- The writer closes the connection. -/
theorem closed_once_writer : ∃ s : State httpRequestHandler,
    Reach (manager httpRequestHandler) (leftToWriter 1) (start httpRequestHandler false 1 1) s ∧
    s.shared.closes 1 ≠ 0 ∧ s.shared.closes 1 ≤ 1 := by
  have hrun : ((manager httpRequestHandler).exec
      (fun s _ a => !a.setsError && !a.stops .read && (!a.stops .write || (s.shared.conn 1).response = []))
      (fun _ => true) (start httpRequestHandler false 1 1)
      [responseLoaded, [.run 1 (.accepted 45)], go 1 7].flatten).any (fun s => s.shared.closes 1 ≠ 0) = true := by decide
  obtain ⟨s, hs, hp⟩ := Reach.exists_of_exec (leftToWriter 1)
    (by
      intro s t a hstep
      refine ⟨⟨?_, ?_⟩, ?_⟩
      · rintro e rfl
        cases hstep
      · rintro rfl
        exact Or.inl (of_decide_eq_true (Bool.and_eq_true_iff.mp hstep).2)
      · rintro rfl
        cases hstep)
    (fun _ _ => trivial) hrun
  exact ⟨s, hs, of_decide_eq_true hp, closed_once false 1 1 1 s hs⟩

/-- The writer clears `isWriteWaiting` after the reader has set it and before the reader tests it: both find
    `IsWaiting()` false. -/
theorem closed_twice : ¬∀ (closed : Bool) (readers writers : Nat) (c : ConnId) (s : State httpRequestHandler),
    Reach (manager httpRequestHandler) (errorFree c) (start httpRequestHandler closed readers writers) s →
    s.shared.closes c ≤ 1 := by
  intro hall
  have hrun : ((manager httpRequestHandler).exec
      (fun _ _ a => !a.setsError) (fun _ => true) (start httpRequestHandler false 1 1)
      [responseAdded, go 0 2, go 1 10, [.run 1 (.accepted 45)], go 1 7, go 0 2].flatten).any
      (fun s => ¬s.shared.closes 1 ≤ 1) = true := by decide
  obtain ⟨s, hs, hp⟩ := Reach.exists_of_exec (errorFree 1)
    (by rintro s t a hstep e rfl; cases hstep) (fun _ _ => trivial) hrun
  exact of_decide_eq_true hp (hall false 1 1 1 s hs)

end SimpleHttp
