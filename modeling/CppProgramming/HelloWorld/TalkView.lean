import CppProgramming.HelloWorld.ClientThreads
import CppProgramming.HelloWorld.Dispatch
import CppProgramming.HelloWorld.TalkClient

/-! # A talk call among the threads of the client

What a `TalkCall` has of `clientProactor`: the fields of its object, its operations on the queue, its entry in the
table, and where its user and the poller of its queue are. Whatever the threads of the client do, for this call or for
others, is a step of the `TalkCall` or does not concern it (`Follows.step`), and so every run of the client from the
preparation of the call on is a run of the `TalkCall` (`follows_of_run`). -/

namespace HelloWorld.Talk
open Interleaving
open Client (ClientEventOpt Call CallKind Instr Op Shared State Act Thread UserPc PollerPc UserStep PollerStep Inv
  Prepared Reachable)
open Server (Status)

/-! ### What a call has of the client -/

/-- Where a poller is for the call `c`. -/
def pollerOf (c : Nat) : PollerPc → Poller
  | .left => .left
  | .raised => .raised
  | .contains o ok | .get o ok =>
    if o.call = c then .run (Client.talkProcess ok (Event.ofToken o.token)) else .next
  | .process c' o ok => if c' = c then .run (Client.talkProcess ok (Event.ofToken o.token)) else .next
  | .run c' _ todo => if c' = c then .run todo else .next
  -- The permit is still to be given.
  | .release c' _ p todo => if c' = c then .run (if p.permits = 1 then .release :: todo else todo) else .next
  | .remove c' _ => if c' = c then .run [] else .next
  | .next | .timeout | .notExist => .next

/-- A user of `c` is where `m` has it, about to do what `m` has next. -/
def Wants (c : Nat) (m : TalkCall) : UserPc → Prop
  | .acquire c' _ _ posts => c' = c → m.holds = false ∧ ∃ u rest, m.user = u :: rest ∧ posts = [u.opt]
  | .post c' _ posts => c' = c → m.holds = true ∧ ∃ u rest, m.user = u :: rest ∧ posts = [u.opt]
  | .idle c' _ => c' = c → m.holds = false
  | _ => True

/-- The same object, but for the threads that wait for `canWrite`. -/
structure Agrees (x y : Call) : Prop where
  kind : x.kind = y.kind
  key : x.key = y.key
  queue : x.queue = y.queue
  finish : x.finish = y.finish
  closed : x.closed = y.closed
  registered : x.registered = y.registered
  posted : x.posted = y.posted
  remaining : x.canWrite.remaining = y.canWrite.remaining

/-- The operations of `c` that have not completed. -/
def operations (s : Shared) (c : Nat) : List (ClientEventOpt × BitVec 64) :=
  (s.inflight.filter (·.call = c)).map fun o => (o.opt, o.token)

/-- What `m` has outstanding. -/
def TalkCall.operations (m : TalkCall) : List (ClientEventOpt × BitVec 64) :=
  m.outstanding.map fun o => (o.opt, o.token)

/-- `m` is the call `c` of the client. -/
structure Follows (s : State) (c : Nat) (m : TalkCall) : Prop where
  prepared : Prepared s.shared c .talk
  call : Agrees m.call (s.shared.call c)
  registered : m.registered = true ↔ s.shared.handlerManager.get (s.shared.call c).registered = some c
  outstanding : m.operations = operations s.shared c
  poller : ∀ k p, Thread.poller k p ∈ s.threads → (s.shared.call c).queue = some (k : Int) → m.poller = pollerOf c p
  user : ∀ p, Thread.user p ∈ s.threads → Wants c m p

/-- What a call has around it: what its user still wants of it, and the connection. -/
structure Outside where
  user : List UserCall
  broken : Bool := false
  shut : Bool := false
  trailing : Option Status := none

/-- The surroundings of `m`. -/
def TalkCall.outside (m : TalkCall) : Outside := ⟨m.user, m.broken, m.shut, m.trailing⟩

namespace Outside

/-- How an operation may complete, as for `TalkCall.Completes`. -/
inductive Completes (w : Outside) : ClientEventOpt → Bool → Outside → Prop
  | startCall : w.broken = false → w.shut = false → Completes w .startCall true w
  | write : w.broken = false → w.shut = false → Completes w .write true w
  | writeDone : w.broken = false → Completes w .writeDone true { w with shut := true }
  | read : w.broken = false → w.trailing = none → Completes w .read true w
  | readEnd : w.trailing.isSome = true → Completes w .read false w
  | finish : w.trailing.isSome = true → Completes w .finish true w
  | fails {opt : ClientEventOpt} : w.broken = true → opt ≠ .finish → Completes w opt false w
  | failsFinish : w.broken = true → Completes w .finish true w

/-- What a step of a thread gets from outside the client: the user of `c` makes the call that it wants next, and an
    operation of `c` completes as it may. -/
def Lets (w : Outside) (c : Nat) (w' : Outside) : Thread → Thread → Prop
  | .user (.idle c' _), .user (.acquire _ _ _ posts) =>
    (c' = c → ∃ u rest, w.user = u :: rest ∧ posts = [u.opt]) ∧ w' = w
  | .user (.post c' _ _), _ => w' = if c' = c then { w with user := w.user.tail } else w
  | .poller _ .next, .poller _ (.contains o ok) => if o.call = c then w.Completes o.opt ok w' else w' = w
  | _, _ => w' = w

end Outside

section Steps
variable {n i k c : Nat} {s : State} {m m' : TalkCall} {t t' : Thread} {a : Act}

theorem Agrees.isComplete {x y : Call} (h : Agrees x y) : x.isComplete = y.isComplete := by
  unfold Call.isComplete
  rw [h.kind, h.finish, h.closed]

theorem wants_of_uses {p : UserPc} (h : (Thread.user p).uses c = 0) : Wants c m p := by
  cases p with
  | acquire c' kind p posts => exact fun heq => absurd h (by simp [Thread.uses, heq])
  | post c' kind posts => exact fun heq => absurd h (by simp [Thread.uses, heq])
  | idle c' kind => exact fun heq => absurd h (by simp [Thread.uses, heq])
  | _ => exact trivial

theorem Wants.congr {p : UserPc} (h : Wants c m p) (huser : m'.user = m.user) (hholds : m'.holds = m.holds) :
    Wants c m' p := by
  cases p with
  | acquire | post | idle =>
    unfold Wants at h ⊢
    rw [hholds]
    first | exact h | (rw [huser]; exact h)
  | _ => exact trivial

/-- A step of a thread, seen from the call. -/
theorem Follows.move (hf : Follows s c m) (hinv : Inv s) (hone : s.weight (Thread.uses c) ≤ 1)
    (hi : s.threads[i]? = some t) (hs : Client.Step s.shared t a t')
    (hcall : Agrees m'.call ((a.apply s.shared).call c))
    (hregistered : m'.registered = true ↔
      (a.apply s.shared).handlerManager.get (s.shared.call c).registered = some c)
    (houtstanding : m'.operations = operations (a.apply s.shared) c)
    (hpoller : ∀ k p, t' = .poller k p → (s.shared.call c).queue = some (k : Int) → m'.poller = pollerOf c p)
    (hpollers : m'.poller = m.poller ∨ ∃ k p, t = .poller k p ∧ (s.shared.call c).queue = some (k : Int))
    (huser : ∀ p, t' = .user p → Wants c m' p)
    (husers : m'.user = m.user ∧ m'.holds = m.holds ∨ t.uses c = 1) :
    Follows ⟨a.apply s.shared, s.threads.set i t'⟩ c m' := by
  have hg := hs.grows (hinv.knows t (List.mem_of_getElem? hi))
  obtain ⟨q, hq⟩ := Option.isSome_iff_exists.mp hf.prepared.queue
  have hqueue := hg.queue c hf.prepared.created q hq
  refine ⟨hf.prepared.grow hg, hcall, ?_, houtstanding, fun k p hp hk => ?_, fun p hp => ?_⟩
  · show _ ↔ (a.apply s.shared).handlerManager.get ((a.apply s.shared).call c).registered = some c
    rw [hg.registered c hf.prepared.created]
    exact hregistered
  · have hk : (s.shared.call c).queue = some (k : Int) := hq.trans (hqueue.symm.trans hk)
    rcases eq_or_of_mem_set hp with heq | ⟨j, hne, hj⟩
    · exact hpoller k p heq.symm hk
    · rcases hpollers with hsame | ⟨k', p', rfl, hk'⟩
      · exact hsame.trans (hf.poller k p (List.mem_of_getElem? hj) hk)
      · have hkk : k' = k := by
          have := hk'.symm.trans hk
          simpa using this
        exact absurd hkk (hinv.polls_ne hi hj (Ne.symm hne))
  · rcases eq_or_of_mem_set hp with heq | ⟨j, hne, hj⟩
    · exact huser p heq.symm
    · rcases husers with ⟨huser, hholds⟩ | huses
      · exact (hf.user p (List.mem_of_getElem? hj)).congr huser hholds
      · refine wants_of_uses ?_
        have := Config.add_le_weight (f := Thread.uses c) hi hj (Ne.symm hne)
        omega

/-- A step that leaves the call as it is. -/
theorem Follows.stay (hf : Follows s c m) (hinv : Inv s) (hone : s.weight (Thread.uses c) ≤ 1)
    (hi : s.threads[i]? = some t) (hs : Client.Step s.shared t a t')
    (hcall : (a.apply s.shared).call c = s.shared.call c)
    (hget : (a.apply s.shared).handlerManager.get (s.shared.call c).registered = some c ↔
      s.shared.handlerManager.get (s.shared.call c).registered = some c)
    (hops : operations (a.apply s.shared) c = operations s.shared c)
    (hpoller : ∀ k p', t' = .poller k p' → ∃ p, t = .poller k p ∧ pollerOf c p' = pollerOf c p)
    (huser : ∀ p, t' = .user p → Wants c m p) : Follows ⟨a.apply s.shared, s.threads.set i t'⟩ c m := by
  refine hf.move hinv hone hi hs (by rw [hcall]; exact hf.call) (hf.registered.trans hget.symm)
    (hf.outstanding.trans hops.symm) (fun k p' ht' hq => ?_) (Or.inl rfl) huser (Or.inl ⟨rfl, rfl⟩)
  obtain ⟨p, rfl, hp⟩ := hpoller k p' ht'
  rw [hp]
  exact hf.poller k p (List.mem_of_getElem? hi) hq

end Steps

section Operations
variable {s : Shared} {c j : Nat} {o : Op} {m : TalkCall}

theorem operations_complete_of_ne (hj : s.inflight[j]? = some o) (hc : o.call ≠ c) :
    operations ((Act.complete j).apply s) c = operations s c := by
  obtain ⟨before, after, hl, herase⟩ := TalkCall.split_of_getElem? hj
  simp only [operations, Act.apply]
  rw [herase, hl]
  simp [hc]

/-- A completed operation of `c` is one that `m` has outstanding. -/
theorem operations_complete (hj : s.inflight[j]? = some o) (hc : o.call = c) (hm : m.operations = operations s c) :
    ∃ (j' : Nat) (p : Posted), m.outstanding[j']? = some p ∧ p.opt = o.opt ∧ p.token = o.token ∧
      { m with outstanding := m.outstanding.eraseIdx j' }.operations = operations ((Act.complete j).apply s) c := by
  obtain ⟨before, after, hl, herase⟩ := TalkCall.split_of_getElem? hj
  have hops : m.outstanding.map (fun p => (p.opt, p.token)) =
      (before.filter (·.call = c)).map (fun o => (o.opt, o.token)) ++ (o.opt, o.token) ::
        (after.filter (·.call = c)).map fun o => (o.opt, o.token) := by
    have := hm
    simpa [operations, TalkCall.operations, hl, hc] using this
  obtain ⟨first, rest, hout, hfirst, hrest⟩ := List.map_eq_append_iff.mp hops
  obtain ⟨p, last, rfl, hp, hlast⟩ := List.map_eq_cons_iff.mp hrest
  obtain ⟨hopt, htoken⟩ := Prod.mk.inj hp
  refine ⟨first.length, p, by simp [hout], hopt, htoken, ?_⟩
  simp [operations, TalkCall.operations, Act.apply, herase, hout, List.eraseIdx_append_of_length_le, hfirst, hlast]

theorem operations_post_of_ne (hc : o.call ≠ c) : operations ((Act.post o).apply s) c = operations s c := by
  simp [operations, Act.apply, Shared.modify, hc]

theorem operations_post (hc : o.call = c) :
    operations ((Act.post o).apply s) c = operations s c ++ [(o.opt, o.token)] := by
  simp [operations, Act.apply, Shared.modify, hc]

end Operations

section Users
variable {i c : Nat} {s : State} {m : TalkCall} {w : Outside} {p p' : UserPc} {a : Act}

theorem modify_self (s : Shared) (c : Nat) (f : Call → Call) : (s.modify c f).call c = f (s.call c) :=
  Function.update_self ..

/-- A step of a user. -/
theorem Follows.userStep (hf : Follows s c m) (hinv : Inv s) (hone : s.weight (Thread.uses c) ≤ 1)
    (hhalves : (Thread.user p).Halves) (hi : s.threads[i]? = some (.user p)) (hs : UserStep s.shared p a p')
    (hlets : m.outside.Lets c w (.user p) (.user p')) :
    ∃ m', (m' = m ∨ ∃ d, m.Step d m') ∧ m'.outside = w ∧
      Follows ⟨a.apply s.shared, s.threads.set i (.user p')⟩ c m' := by
  have hk := hinv.knows _ (List.mem_of_getElem? hi)
  have hw := hf.user p (List.mem_of_getElem? hi)
  have hstay : w = m.outside → (a.apply s.shared).call c = s.shared.call c →
      ((a.apply s.shared).handlerManager.get (s.shared.call c).registered = some c ↔
        s.shared.handlerManager.get (s.shared.call c).registered = some c) →
      operations (a.apply s.shared) c = operations s.shared c → Wants c m p' →
      ∃ m', (m' = m ∨ ∃ d, m.Step d m') ∧ m'.outside = w ∧
        Follows ⟨a.apply s.shared, s.threads.set i (.user p')⟩ c m' := by
    intro houtside hcall hget hops hwants
    refine ⟨m, Or.inl rfl, houtside.symm, hf.stay hinv hone hi (.user hs) hcall hget hops (by simp) ?_⟩
    rintro q hq
    cases hq
    exact hwants
  cases hs with
  | @add kind key manager hadd =>
    obtain ⟨hnone, hnew, hother⟩ := EventHandlerManager.add_cases hadd
    refine hstay hlets (Function.update_of_ne (Nat.ne_of_lt hf.prepared.created) _ _) ?_ rfl trivial
    by_cases hkey : (s.shared.call c).registered = key
    · rw [hkey, hnone]
      simp only [Act.apply, hnew, Option.some.injEq, reduceCtorEq, iff_false]
      exact Nat.ne_of_gt hf.prepared.created
    · simp only [Act.apply]
      rw [hother _ hkey]
  | addFull => exact hstay hlets rfl Iff.rfl rfl trivial
  | @prepare c' kind key queue =>
    have hne : c' ≠ c := by
      rintro rfl
      have := hf.prepared.queue
      rw [hk.2.2.2.2] at this
      cases this
    refine hstay hlets (Function.update_of_ne (Ne.symm hne) _ _) Iff.rfl rfl ?_
    unfold UserPc.afterPrepare
    split
    · exact fun heq => absurd heq hne
    · exact fun heq => absurd heq hne
  | @acquire c' kind sp sp' sa posts hsem =>
    by_cases hc : c' = c
    · subst hc
      obtain ⟨hholds, u, rest, huser, hposts⟩ := hw rfl
      obtain ⟨-, ⟨rfl, rfl, hpos⟩ | ⟨hsame, hreturns⟩⟩ := hsem.acquiring hhalves
      · refine ⟨m.acquire, Or.inr ⟨[], .acquire huser hholds (hf.call.remaining ▸ hpos)⟩, hlets.symm, ?_⟩
        refine hf.move hinv hone hi (.user (.acquire hsem)) ?_ hf.registered hf.outstanding (by simp) (Or.inl rfl) ?_
          (Or.inr (if_pos rfl))
        · have := hf.call
          simp only [Act.apply, modify_self]
          exact { this with remaining := congrArg (· - 1) this.remaining }
        · rintro q hq
          cases hq
          exact fun _ => ⟨rfl, u, rest, huser, hposts⟩
      · refine ⟨m, Or.inl rfl, hlets.symm, ?_⟩
        refine hf.move hinv hone hi (.user (.acquire hsem)) ?_ hf.registered hf.outstanding (by simp) (Or.inl rfl) ?_
          (Or.inl ⟨rfl, rfl⟩)
        · simp only [Act.apply, modify_self]
          exact { hf.call with remaining := hf.call.remaining.trans hsame.symm }
        · rintro q hq
          cases hq
          unfold UserPc.afterAcquire
          split
          · exact absurd rfl hreturns
          · exact hw
    · refine hstay hlets (Function.update_of_ne (Ne.symm hc) _ _) Iff.rfl rfl ?_
      unfold UserPc.afterAcquire
      split <;> exact fun heq => absurd heq hc
  | @post c' kind opt posts =>
    by_cases hc : c' = c
    · subst hc
      obtain ⟨hholds, u, rest, huser, hposts⟩ := hw rfl
      obtain ⟨rfl, rfl⟩ := List.cons.inj hposts
      have houtside : (m.userPost u rest).outside = w := by
        refine Eq.trans ?_ (hlets.trans (if_pos rfl)).symm
        simp [TalkCall.outside, TalkCall.userPost, TalkCall.post, huser]
      refine ⟨m.userPost u rest, Or.inr ⟨[], .post huser hholds⟩, houtside, ?_⟩
      have hkey := hf.call.key
      refine hf.move hinv hone hi (.user .post) ?_ hf.registered ?_ (by simp) (Or.inl rfl) ?_ (Or.inr (if_pos rfl))
      · simp only [Act.apply, Shared.op, modify_self]
        exact { hf.call with posted := congrArg (· ++ [u.opt]) hf.call.posted }
      · refine Eq.trans ?_ (operations_post (c := c') rfl).symm
        rw [← hf.outstanding]
        simp [TalkCall.operations, TalkCall.userPost, TalkCall.post, Shared.op, Shared.userEvent, hkey]
      · rintro q hq
        cases hq
        simp only [UserPc.afterPost]
        split
        · exact fun _ => rfl
        · exact trivial
    · refine hstay (hlets.trans (if_neg hc)) (Function.update_of_ne (Ne.symm hc) _ _) Iff.rfl
        (operations_post_of_ne hc) ?_
      unfold UserPc.afterPost
      split
      · split
        · exact fun heq => absurd heq hc
        · exact trivial
      · exact fun heq => absurd heq hc
  | @write c' kind => exact hstay hlets.2 rfl Iff.rfl rfl fun heq => ⟨hw heq, hlets.1 heq⟩
  | @close c' kind => exact hstay hlets.2 rfl Iff.rfl rfl fun heq => ⟨hw heq, hlets.1 heq⟩

end Users

section Pollers
variable {i k c : Nat} {s : State} {m : TalkCall} {w : Outside} {p p' : PollerPc} {a : Act}

theorem TalkCall.log_same (m : TalkCall) (ok : Bool) (event : Event) :
    (m.log ok event).call = m.call ∧ (m.log ok event).registered = m.registered ∧
      (m.log ok event).outstanding = m.outstanding ∧ (m.log ok event).user = m.user ∧
      (m.log ok event).holds = m.holds ∧ (m.log ok event).outside = m.outside := by
  unfold TalkCall.log
  split
  · split <;> exact ⟨rfl, rfl, rfl, rfl, rfl, rfl⟩
  · split <;> exact ⟨rfl, rfl, rfl, rfl, rfl, rfl⟩
  · exact ⟨rfl, rfl, rfl, rfl, rfl, rfl⟩

/-- The poller goes into `process` with a token of the call. -/
theorem TalkCall.dispatch_eq (m : TalkCall) (token : BitVec 64) (ok : Bool) (hkind : m.call.kind = .talk)
    (hkey : m.call.key = some (Event.ofToken token).getKey) (hregistered : m.registered = true)
    (hadded : (Event.ofToken token).getKey = m.call.registered) :
    m.dispatch token ok = { m.log ok (Event.ofToken token) with
      poller := .run (Client.talkProcess ok (Event.ofToken token)) } := by
  have hprocess : m.call.process ok (Event.ofToken token) =
      some (Client.talkProcess ok (Event.ofToken token)) := by
    unfold Call.process
    rw [hkind]
    exact if_neg (not_not.mpr hkey)
  unfold TalkCall.dispatch
  simp only [hregistered, hadded, beq_self_eq_true, Bool.and_self, if_true, hprocess]

theorem todo_of_process {x : Call} {ok : Bool} {event : Event} {todo : List Instr} (hkind : x.kind = .talk)
    (h : x.process ok event = some todo) : todo = Client.talkProcess ok event := by
  simp only [Call.process, hkind] at h
  split at h
  · cases h
  · exact (Option.some.inj h).symm

/-- What an operation may bring is up to the connection. -/
theorem completes_of_outside {o : Posted} {ok : Bool} (h : m.outside.Completes o.opt ok w) :
    ∃ d m', m.Completes o d ok m' ∧ m'.outside = w := by
  generalize hopt : o.opt = opt at h
  cases h with
  | startCall hholds hopen => exact ⟨_, _, .startCall hopt hholds hopen, rfl⟩
  | write hholds hopen => exact ⟨_, _, .write hopt hholds hopen, rfl⟩
  | writeDone hholds => exact ⟨_, _, .writeDone hopt hholds, rfl⟩
  | read hholds hnone => exact ⟨_, _, .read "" hopt hholds hnone, rfl⟩
  | readEnd hsome => exact ⟨_, _, .readEnd hopt hsome, rfl⟩
  | finish hsome =>
    obtain ⟨status, hstatus⟩ := Option.isSome_iff_exists.mp hsome
    exact ⟨_, _, .finish status hopt hstatus, rfl⟩
  | fails hbroken hne => exact ⟨_, _, .fails hbroken (hopt ▸ hne), rfl⟩
  | failsFinish hbroken => exact ⟨_, _, .failsFinish hbroken hopt, rfl⟩

/-- An operation of the call completes. -/
theorem Follows.complete (hf : Follows s c m) (hinv : Inv s) (hone : s.weight (Thread.uses c) ≤ 1) {j : Nat} {o : Op}
    {ok : Bool} (hi : s.threads[i]? = some (.poller k .next)) (hj : s.shared.inflight[j]? = some o)
    (hqueue : o.queue = k) (hc : o.call = c)
    (hcompletes : m.outside.Completes o.opt ok w) :
    ∃ m', (m' = m ∨ ∃ d, m.Step d m') ∧ m'.outside = w ∧
      Follows ⟨(Act.complete j).apply s.shared, s.threads.set i (.poller k (.contains o ok))⟩ c m' := by
  subst hc
  have ho := List.mem_of_getElem? hj
  obtain ⟨hknown, hget⟩ := hinv.known_undispatched (List.mem_append_left _ ho)
  have hq : (s.shared.call o.call).queue = some (k : Int) := hqueue ▸ hknown.queue
  have hnext := hf.poller k .next (List.mem_of_getElem? hi) hq
  obtain ⟨j', p, hp, hopt, htoken, hops⟩ := operations_complete hj rfl hf.outstanding
  obtain ⟨d, m', hcompletes, houtside⟩ := completes_of_outside (hopt ▸ hcompletes)
  obtain ⟨hcall, hregistered, huser, hholds⟩ := hcompletes.same
  have hkey : (Event.ofToken o.token).getKey = (s.shared.call o.call).registered := by rw [hknown.token]; rfl
  have hlisted : m.registered = true := hf.registered.mpr (hkey ▸ hget)
  have hdispatch := TalkCall.dispatch_eq { m' with outstanding := m.outstanding.eraseIdx j' } p.token ok
    (by rw [hcall, hf.call.kind, hf.prepared.kind])
    (by rw [hcall, hf.call.key, hf.prepared.key, htoken, hkey]) (by rw [hregistered, hlisted])
    (by rw [hcall, hf.call.registered, htoken, hkey])
  have hstep := TalkCall.Step.complete hnext hp hcompletes
  rw [hdispatch, htoken] at hstep
  obtain ⟨hlcall, hlregistered, hloutstanding, hluser, hlholds, hloutside⟩ :=
    TalkCall.log_same { m' with outstanding := m.outstanding.eraseIdx j' } ok (Event.ofToken o.token)
  refine ⟨_, Or.inr ⟨d, hstep⟩, hloutside.trans houtside, ?_⟩
  refine hf.move hinv hone hi (.poller (.completed hj hqueue)) ?_ ?_ ?_ ?_ (Or.inr ⟨k, .next, rfl, hq⟩) (by simp)
    (Or.inl ⟨hluser.trans huser, hlholds.trans hholds⟩)
  · exact hlcall.trans hcall ▸ hf.call
  · exact (hlregistered.trans hregistered) ▸ hf.registered
  · simp only [TalkCall.operations] at hops ⊢
    rw [hloutstanding]
    exact hops
  · rintro k' q hq' -
    cases hq'
    exact (if_pos rfl).symm

/-- A step of a poller. -/
theorem Follows.pollerStep (hf : Follows s c m) (hinv : Inv s) (hone : s.weight (Thread.uses c) ≤ 1)
    (hhalves : (Thread.poller k p).Halves) (hi : s.threads[i]? = some (.poller k p)) (hs : PollerStep k s.shared p a p')
    (hlets : m.outside.Lets c w (.poller k p) (.poller k p')) :
    ∃ m', (m' = m ∨ ∃ d, m.Step d m') ∧ m'.outside = w ∧
      Follows ⟨a.apply s.shared, s.threads.set i (.poller k p')⟩ c m' := by
  have ht := List.mem_of_getElem? hi
  have hk := hinv.knows _ ht
  have hk' := hinv.knows_self ht (.poller hs)
  -- What leaves the call and the view of it as they are.
  have hstay : w = m.outside → (a.apply s.shared).call c = s.shared.call c →
      ((a.apply s.shared).handlerManager.get (s.shared.call c).registered = some c ↔
        s.shared.handlerManager.get (s.shared.call c).registered = some c) →
      operations (a.apply s.shared) c = operations s.shared c → pollerOf c p' = pollerOf c p →
      ∃ m', (m' = m ∨ ∃ d, m.Step d m') ∧ m'.outside = w ∧
        Follows ⟨a.apply s.shared, s.threads.set i (.poller k p')⟩ c m' := by
    intro houtside hcall hget hops hview
    refine ⟨m, Or.inl rfl, houtside.symm, hf.stay hinv hone hi (.poller hs) hcall hget hops ?_ (by simp)⟩
    rintro k' q hq
    cases hq
    exact ⟨p, rfl, hview⟩
  -- What the poller of the call does to it.
  have hmove : ∀ m' : TalkCall, m'.outside = w → (s.shared.call c).queue = some (k : Int) → m.Step [] m' →
      Agrees m'.call ((a.apply s.shared).call c) →
      (m'.registered = true ↔ (a.apply s.shared).handlerManager.get (s.shared.call c).registered = some c) →
      m'.operations = operations (a.apply s.shared) c → m'.poller = pollerOf c p' →
      m'.user = m.user ∧ m'.holds = m.holds →
      ∃ m', (m' = m ∨ ∃ d, m.Step d m') ∧ m'.outside = w ∧
        Follows ⟨a.apply s.shared, s.threads.set i (.poller k p')⟩ c m' := by
    intro m' houtside hq hstep hcall hget hops hview hsame
    refine ⟨m', Or.inr ⟨[], hstep⟩, houtside, hf.move hinv hone hi (.poller hs) hcall hget hops ?_
      (Or.inr ⟨k, p, rfl, hq⟩) (by simp) (Or.inl hsame)⟩
    rintro k' q hq' -
    cases hq'
    exact hview
  have hpoller := fun hq => hf.poller k p ht hq
  cases hs with
  | @completed j o ok hj hq =>
    by_cases hc : o.call = c
    · exact hf.complete hinv hone hi hj hq hc ((if_pos hc).mp hlets)
    · exact hstay ((if_neg hc).mp hlets) rfl Iff.rfl (operations_complete_of_ne hj hc) (if_neg hc)
  | timeout | again => exact hstay hlets rfl Iff.rfl rfl rfl
  | leave hz =>
    by_cases hq : (s.shared.call c).queue = some (k : Int)
    · have hgone : m.registered = false := by
        refine Bool.eq_false_of_not_eq_true fun hregistered => ?_
        have := hf.registered.mp hregistered
        rw [EventHandlerManager.get_of_count_zero hz] at this
        cases this
      exact hmove { m with poller := .left } hlets.symm hq (.leaves (hpoller hq) hgone) hf.call hf.registered
        hf.outstanding rfl ⟨rfl, rfl⟩
    · refine ⟨m, Or.inl rfl, hlets.symm, hf.move hinv hone hi (.poller (.leave hz)) hf.call hf.registered
        hf.outstanding ?_ (Or.inl rfl) (by simp) (Or.inl ⟨rfl, rfl⟩)⟩
      rintro k' q hq' hqueue
      cases hq'
      exact absurd hqueue hq
  | contains => exact hstay hlets rfl Iff.rfl rfl rfl
  | notExist | getRaises | processRaises => exact hk'.elim
  | warned => exact hk.elim
  | @get o ok c' hget =>
    obtain ⟨-, rfl, -⟩ := hk'
    exact hstay hlets rfl Iff.rfl rfl rfl
  | @process c' o ok todo hprocess =>
    refine hstay hlets rfl Iff.rfl rfl ?_
    by_cases hc : c' = c
    · subst hc
      simp only [pollerOf, if_true]
      rw [todo_of_process hf.prepared.kind hprocess]
    · exact (if_neg hc).trans (if_neg hc).symm
  | @post c' key opt event todo =>
    by_cases hc : c' = c
    · subst hc
      refine hmove { m.post opt "" event with poller := .run todo } hlets.symm hk.1.queue
        (.exec ((hpoller hk.1.queue).trans (if_pos rfl)) rfl) ?_ hf.registered ?_ (if_pos rfl).symm ⟨rfl, rfl⟩
      · simp only [Act.apply, Shared.op, modify_self]
        exact { hf.call with posted := congrArg (· ++ [opt]) hf.call.posted }
      · refine Eq.trans ?_ (operations_post (c := c') rfl).symm
        rw [← hf.outstanding]
        simp [TalkCall.operations, TalkCall.post, Shared.op]
    · exact hstay hlets (Function.update_of_ne (Ne.symm hc) _ _) Iff.rfl (operations_post_of_ne hc)
        ((if_neg hc).trans (if_neg hc).symm)
  | @setFinish c' key todo =>
    by_cases hc : c' = c
    · subst hc
      refine hmove { m with call := { m.call with finish := true }, poller := .run todo } hlets.symm hk.1.queue
        (.exec ((hpoller hk.1.queue).trans (if_pos rfl)) rfl) ?_ hf.registered hf.outstanding (if_pos rfl).symm
        ⟨rfl, rfl⟩
      simp only [Act.apply, modify_self]
      exact { hf.call with finish := rfl }
    · exact hstay hlets (Function.update_of_ne (Ne.symm hc) _ _) Iff.rfl rfl ((if_neg hc).trans (if_neg hc).symm)
  | @setClosed c' key todo =>
    by_cases hc : c' = c
    · subst hc
      refine hmove { m with call := { m.call with closed := true }, poller := .run todo } hlets.symm hk.1.queue
        (.exec ((hpoller hk.1.queue).trans (if_pos rfl)) rfl) ?_ hf.registered hf.outstanding (if_pos rfl).symm
        ⟨rfl, rfl⟩
      simp only [Act.apply, modify_self]
      exact { hf.call with closed := rfl }
    · exact hstay hlets (Function.update_of_ne (Ne.symm hc) _ _) Iff.rfl rfl ((if_neg hc).trans (if_neg hc).symm)
  | @release c' key todo => exact hstay hlets rfl Iff.rfl rfl rfl
  | unexpected => exact (hk.2.1 _ (List.mem_cons_self ..)).elim
  | @releasing c' key sp sp' sa todo hsem =>
    by_cases hc : c' = c
    · subst hc
      obtain ⟨-, ⟨rfl, hbefore, hafter, hlt⟩ | ⟨hsame, hpermits⟩⟩ := hsem.releasing hhalves
      · have hfree : m.call.canWrite.remaining < 1 := hf.call.remaining ▸ hlt
        have hrun : m.poller = .run (.release :: todo) := by
          rw [hpoller hk.1.queue, pollerOf, if_pos rfl, if_pos hbefore]
        refine hmove { m.release with poller := .run todo } hlets.symm hk.1.queue (.exec hrun (if_pos hfree)) ?_
          hf.registered hf.outstanding ?_ ⟨rfl, rfl⟩
        · simp only [Act.apply, modify_self]
          exact { hf.call with remaining := congrArg (· + 1) hf.call.remaining }
        · simp [pollerOf, hafter]
      · refine ⟨m, Or.inl rfl, hlets.symm, hf.move hinv hone hi (.poller (.releasing hsem)) ?_ hf.registered
          hf.outstanding ?_ (Or.inl rfl) (by simp) (Or.inl ⟨rfl, rfl⟩)⟩
        · simp only [Act.apply, modify_self]
          exact { hf.call with remaining := hf.call.remaining.trans hsame.symm }
        · rintro k' q hq' hqueue
          cases hq'
          rw [hpoller hqueue]
          simp only [pollerOf, hpermits]
    · exact hstay hlets (Function.update_of_ne (Ne.symm hc) _ _) Iff.rfl rfl ((if_neg hc).trans (if_neg hc).symm)
  | @released c' key todo => exact hstay hlets rfl Iff.rfl rfl rfl
  | @spin c' key todo => exact hstay hlets rfl Iff.rfl rfl rfl
  | @complete c' key hcomplete => exact hstay hlets rfl Iff.rfl rfl rfl
  | @incomplete c' key hincomplete =>
    by_cases hc : c' = c
    · subst hc
      refine hmove { m with poller := .next, registered := m.registered && !m.call.isComplete } hlets.symm hk.1.queue
        (.next ((hpoller hk.1.queue).trans (if_pos rfl))) hf.call ?_ hf.outstanding rfl ⟨rfl, rfl⟩
      rw [hf.call.isComplete, hincomplete, Bool.not_false, Bool.and_true]
      exact hf.registered
    · exact hstay hlets rfl Iff.rfl rfl (if_neg hc).symm
  | @remove c' key =>
    obtain ⟨hh, hdone⟩ := hk
    by_cases hc : c' = c
    · subst hc
      have hcomplete : m.call.isComplete = true := by
        rw [hf.call.isComplete, Call.isComplete, hf.prepared.kind]
        exact Bool.and_eq_true_iff.mpr ⟨hdone.1, hdone.2 (by rw [hf.prepared.kind]; rfl)⟩
      refine hmove { m with poller := .next, registered := m.registered && !m.call.isComplete } hlets.symm hh.queue
        (.next ((hpoller hh.queue).trans (if_pos rfl))) hf.call ?_ hf.outstanding rfl ⟨rfl, rfl⟩
      rw [hcomplete, hh.registered]
      simp [Act.apply, EventHandlerManager.get_remove_self]
    · refine hstay hlets rfl ?_ rfl (if_neg hc).symm
      by_cases hkey : (s.shared.call c).registered = key
      · rw [hkey, hh.get]
        simp [Act.apply, EventHandlerManager.get_remove_self, hc]
      · simp only [Act.apply]
        rw [EventHandlerManager.get_remove_of_ne hkey]

end Pollers

/-! ### The simulation -/

section Simulation
variable {n i c : Nat} {s : State} {m m' : TalkCall} {w : Outside} {t t' : Thread} {x : Client.Choice} {a : Act}
  {key : EventKey} {queue : Int}

/-- Nobody has anything of a call that is not prepared. -/
theorem pollerOf_of_unprepared {k : Nat} {p : PollerPc} (hk : (Thread.poller k p).Knows s.shared)
    (hkey : (s.shared.call c).key = none) : pollerOf c p = if p = .left then .left else .next := by
  have hheld : ∀ {c' : Nat} {kind : CallKind}, Prepared s.shared c' kind → c' ≠ c := by
    rintro c' kind hp rfl
    cases hkey.symm.trans hp.key
  cases p with
  | contains o ok | get o ok => exact if_neg (hheld hk.1.prepared)
  | process c' o ok => exact if_neg (hheld hk.2.2.prepared)
  | run c' key todo => exact if_neg (hheld hk.1.prepared)
  | release c' key sp todo => exact if_neg (hheld hk.1.prepared)
  | remove c' key => exact if_neg (hheld hk.1.prepared)
  | raised => exact hk.elim
  | _ => rfl

/-- Who polls a queue is the poller of the queue. -/
theorem exists_poller_of_isPolling {k : Nat} (h : t.isPolling (k : Int) = true) : ∃ p, t = .poller k p := by
  cases t with
  | user p => cases h
  | poller k' p =>
    have heq : (k' : Int) = k := by
      cases p with
      | left | raised => cases h
      | _ => exact of_decide_eq_true h
    exact ⟨p, by rw [Int.ofNat_inj.mp heq]⟩

/-- A queue is polled unless its poller has left. -/
theorem any_isPolling (hinv : Inv s) {j k : Nat} {p : PollerPc} (hj : s.threads[j]? = some (.poller k p)) :
    s.threads.any (Thread.isPolling k) = true ↔ p ≠ .left := by
  constructor
  · rintro hany rfl
    obtain ⟨u, hu, hpolling⟩ := List.any_eq_true.mp hany
    obtain ⟨j', hj'⟩ := List.getElem?_of_mem hu
    obtain ⟨p', rfl⟩ := exists_poller_of_isPolling hpolling
    by_cases heq : j = j'
    · subst heq
      cases hj.symm.trans hj'
      cases hpolling
    · exact hinv.polls_ne hj hj' heq rfl
  · intro hleft
    have ht := List.mem_of_getElem? hj
    refine List.any_eq_true.mpr ⟨_, ht, ?_⟩
    cases p with
    | left => exact absurd rfl hleft
    | raised => exact (hinv.knows _ ht).elim
    | _ => exact decide_eq_true rfl

/-- A call of `talk` begins as a `TalkCall` does, behind `prepareAsyncCall`. -/
theorem follows_start (h : Reachable n s) (hi : s.threads[i]? = some (.user (.prepare c .talk key)))
    (messages : List String) :
    Follows ⟨(Act.prepare c key queue).apply s.shared, s.threads.set i (.user (.afterPrepare c .talk))⟩ c
      (TalkCall.start (s.threads.any (Thread.isPolling queue)) key queue messages) := by
  have hinv := Client.inv h
  have ht := List.mem_of_getElem? hi
  obtain ⟨hc, hkind, hreg, hkey, -⟩ := hinv.knows _ ht
  have hfresh := Client.fresh h c hc hkey
  have hcall : ((Act.prepare c key queue).apply s.shared).call c =
      { kind := .talk, key := some key, queue := some queue, registered := key } := by
    simp only [Act.apply, modify_self]
    rw [hfresh, hkind, hreg]
  refine ⟨?_, ?_, ?_, ?_, ?_, ?_⟩
  · refine ⟨hc, ?_, ?_, ?_⟩ <;> rw [hcall]
    rfl
  · rw [hcall]
    exact ⟨rfl, rfl, rfl, rfl, rfl, rfl, rfl, rfl⟩
  · rw [hcall]
    refine iff_of_true rfl ?_
    rw [← hreg]
    refine (hinv.kept c hc).resolve_right fun hdone => ?_
    rw [Client.Call.Done, hfresh] at hdone
    cases hdone.1
  · have hnone : s.shared.inflight.filter (·.call = c) = [] := by
      refine List.filter_eq_nil_iff.mpr fun o ho hoc => ?_
      have hp := (hinv.ops o ho).prepared.key
      rw [of_decide_eq_true hoc, hkey] at hp
      cases hp
    simp [TalkCall.operations, TalkCall.start, operations, Act.apply, Shared.modify, hnone]
  · intro k p hp hq
    rw [hcall] at hq
    obtain ⟨j, hne, hj⟩ := (eq_or_of_mem_set hp).resolve_left (by simp)
    rw [pollerOf_of_unprepared (hinv.knows _ (List.mem_of_getElem? hj)) hkey]
    cases hq
    have hpolling := any_isPolling hinv hj
    by_cases hleft : p = .left
    · have hnone : s.threads.any (Thread.isPolling k) = false :=
        Bool.eq_false_of_not_eq_true fun hany => hpolling.mp hany hleft
      simp [TalkCall.start, hnone, hleft]
    · simp [TalkCall.start, hpolling.mpr hleft, hleft]
  · intro p hp
    rcases eq_or_of_mem_set hp with heq | ⟨j, hne, hj⟩
    · cases heq
      exact fun _ => ⟨rfl, .start, messages.map UserCall.write ++ [UserCall.close], rfl, rfl⟩
    · refine wants_of_uses ?_
      have := Config.add_le_weight (f := Thread.uses c) hi hj (Ne.symm hne)
      have hle := Client.uses_le_one h c
      have hone : (Thread.user (.prepare c .talk key)).uses c = 1 := if_pos rfl
      omega

/-- Whatever a thread of the client does is a step of the `TalkCall` or does not concern it. -/
theorem Follows.step (hf : Follows s c m) (h : Reachable n s) (hi : s.threads[i]? = some t)
    (hstep : t.step n s.shared x = some (a, t')) (hlets : m.outside.Lets c w t t') :
    ∃ m', (m' = m ∨ ∃ d, m.Step d m') ∧ m'.outside = w ∧ Follows ⟨a.apply s.shared, s.threads.set i t'⟩ c m' := by
  have hinv := Client.inv h
  have ht := List.mem_of_getElem? hi
  have hone := Client.uses_le_one h c
  have hhalves := Client.halves h t ht
  cases Client.Thread.step_cases hinv.bounded (hinv.knows t ht).fits hstep with
  | user hs => exact hf.userStep hinv hone hhalves hi hs hlets
  | poller hs => exact hf.pollerStep hinv hone hhalves hi hs hlets

/-- What goes over the connection is not seen by the client. -/
theorem Follows.congr (hf : Follows s c m) (hcall : m'.call = m.call) (hregistered : m'.registered = m.registered)
    (houtstanding : m'.outstanding = m.outstanding) (hpoller : m'.poller = m.poller) (huser : m'.user = m.user)
    (hholds : m'.holds = m.holds) : Follows s c m' where
  prepared := hf.prepared
  call := hcall ▸ hf.call
  registered := hregistered ▸ hf.registered
  outstanding := by
    rw [← hf.outstanding, TalkCall.operations, TalkCall.operations, houtstanding]
  poller k p hp hq := hpoller.trans (hf.poller k p hp hq)
  user p hp := (hf.user p hp).congr huser hholds

/-- So is a call that comes in. -/
theorem Follows.enter (hf : Follows s c m) (kind : CallKind) :
    Follows ⟨s.shared, s.threads ++ [Thread.user (.add kind)]⟩ c m := by
  refine { hf with poller := fun k p hp => ?_, user := fun p hp => ?_ }
  · exact hf.poller k p ((List.mem_append.mp hp).resolve_right (by simp))
  · rcases List.mem_append.mp hp with hp | hp
    · exact hf.user p hp
    · cases List.mem_singleton.mp hp
      exact trivial

/-- The runs of the client from `s₀` on, with what is around the call `c`. The connection may break down at any time, and
    the status of the call may come in. -/
inductive Accompanied (n c : Nat) (s₀ : State) (messages : List String) : State → Outside → Prop
  | start : Accompanied n c s₀ messages s₀ { user := userCalls messages }
  | run {s : State} {w w' : Outside} {i : Nat} {x : Client.Choice} {t t' : Thread} {a : Act} :
      Accompanied n c s₀ messages s w → s.threads[i]? = some t → t.step n s.shared x = some (a, t') →
      w.Lets c w' t t' → Accompanied n c s₀ messages ⟨a.apply s.shared, s.threads.set i t'⟩ w'
  | enter {s : State} {w : Outside} (kind : CallKind) : Accompanied n c s₀ messages s w →
      Accompanied n c s₀ messages ⟨s.shared, s.threads ++ [Thread.user (.add kind)]⟩ w
  | breaks {s : State} {w : Outside} : Accompanied n c s₀ messages s w →
      Accompanied n c s₀ messages s { w with broken := true }
  | trailing {s : State} {w : Outside} (status : Status) : Accompanied n c s₀ messages s w → w.broken = false →
      w.trailing = none → Accompanied n c s₀ messages s { w with trailing := some status }

/-- Whatever the threads of the client do for its calls, from the preparation of a call of `talk` on it is a `TalkCall`;
    it has a poller if that of its queue was still in its loop. -/
theorem follows_of_run {t' : Thread} (h : Reachable n s)
    (hi : s.threads[i]? = some (.user (.prepare c .talk key)))
    (hprepare : (Thread.user (.prepare c .talk key)).step n s.shared .go = some (.prepare c key queue, t'))
    {messages : List String} {s' : State}
    (hrun : Accompanied n c ⟨(Act.prepare c key queue).apply s.shared, s.threads.set i t'⟩ messages s' w) :
    Reachable n s' ∧ ∃ m, Follows s' c m ∧ m.outside = w ∧
      (TalkCall.clientEnd (s.threads.any (Thread.isPolling queue)) key queue messages).Reach m := by
  induction hrun with
  | start =>
    have hstep : (Client.clientProactor n).step s.shared (.user (.prepare c .talk key)) .go =
        some (.prepare c key queue, t') := hprepare
    refine ⟨.run h rfl hi hstep trivial, _, ?_, rfl, .start⟩
    obtain ⟨-, rfl⟩ := Prod.mk.inj (Option.some.inj hprepare)
    exact follows_start h hi messages
  | run _ hi hstep hlets ih =>
    obtain ⟨hr, m, hf, rfl, hm⟩ := ih
    obtain ⟨m', hm', houtside, hf'⟩ := hf.step hr hi hstep hlets
    refine ⟨.run hr rfl hi hstep trivial, m', hf', houtside, ?_⟩
    rcases hm' with rfl | ⟨d, hm'⟩
    · exact hm
    · exact .step hm ⟨hm', rfl⟩
  | enter kind _ ih =>
    obtain ⟨hr, m, hf, hw, hm⟩ := ih
    exact ⟨.enter hr rfl trivial, m, hf.enter kind, hw, hm⟩
  | breaks _ ih =>
    obtain ⟨hr, m, hf, rfl, hm⟩ := ih
    exact ⟨hr, { m with broken := true }, hf.congr rfl rfl rfl rfl rfl rfl, rfl, .step hm ⟨.breaks, rfl⟩⟩
  | trailing status _ hholds hnone ih =>
    obtain ⟨hr, m, hf, rfl, hm⟩ := ih
    exact ⟨hr, { m with trailing := some status, got := m.got ++ [Frame.status status] },
      hf.congr rfl rfl rfl rfl rfl rfl, rfl, .step hm ⟨.trailing status hholds hnone, rfl⟩⟩

/-- When the `TalkCall` is done, nothing of the call is left in the client. -/
theorem Follows.finished {polling : Bool} {messages : List String} (hf : Follows s c m)
    (h : (TalkCall.clientEnd polling key queue messages).Finished m) :
    (∀ o ∈ s.shared.inflight, o.call ≠ c) ∧ s.shared.handlerManager.get (s.shared.call c).registered ≠ some c := by
  obtain ⟨-, -, houtstanding, hgone⟩ := h
  constructor
  · intro o ho hc
    have hnone := hf.outstanding
    rw [TalkCall.operations, houtstanding] at hnone
    have := List.filter_eq_nil_iff.mp (List.map_eq_nil_iff.mp hnone.symm) o ho
    exact this (decide_eq_true hc)
  · intro hget
    cases hgone.symm.trans (hf.registered.mpr hget)

end Simulation

end HelloWorld.Talk
