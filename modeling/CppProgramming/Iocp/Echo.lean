import CppProgramming.Iocp.Steps

/-! # The echo

What the holder of a context knows: where the bytes are that were received and not yet sent back. One buffer serves
both directions, so this ties the contents of the buffer, the two counters and `lastOption` together. -/

namespace Iocp
open Interleaving Holdings

/-! ### Contexts -/

/-- What holds of a context at every point. -/
structure ClientContext.Sound (c : ClientContext) : Prop where
  buffer : c.buffer.length = bufferSize
  sent : c.sent <+: c.received
  numberOfBytesSent : c.numberOfBytesSent ≤ c.numberOfBytesToSend
  numberOfBytesToSend : c.numberOfBytesToSend.toNat ≤ bufferSize

/-- What the holder of a context knows. -/
def ClientContext.Fits (c : ClientContext) : Stage → Prop
  | .fresh => c.sent = c.received
  | .first => c.lastOption = .recv ∧ c.wsaBuf = ⟨0, UInt32.ofNat bufferSize⟩ ∧ c.sent = c.received
  | .recv buf => c.lastOption = .recv ∧ c.wsaBuf.buf = 0 ∧ buf = ⟨0, UInt32.ofNat bufferSize⟩ ∧ c.sent = c.received
  | .send buf => c.lastOption = .send ∧ c.wsaBuf.buf = 0 ∧
      buf = ⟨c.numberOfBytesSent.toNat, c.numberOfBytesToSend - c.numberOfBytesSent⟩ ∧
      c.received = c.sent ++ (c.buffer.drop buf.buf).take buf.len.toNat
  | .done n => c.wsaBuf.buf = 0 ∧
      (c.lastOption = .recv ∧ n.toNat ≤ bufferSize ∧ c.received = c.sent ++ c.buffer.take n.toNat ∨
        c.lastOption = .send ∧ c.numberOfBytesSent.toNat + n.toNat ≤ c.numberOfBytesToSend.toNat ∧
        c.received = c.sent ++ (c.buffer.drop (c.numberOfBytesSent.toNat + n.toNat)).take
          (c.numberOfBytesToSend.toNat - (c.numberOfBytesSent.toNat + n.toNat)))
  | .last => True

namespace ClientContext
variable {c : ClientContext}

theorem Sound.sub_toNat (h : c.Sound) :
    (c.numberOfBytesToSend - c.numberOfBytesSent).toNat = c.numberOfBytesToSend.toNat - c.numberOfBytesSent.toNat :=
  UInt32.toNat_sub_of_le _ _ h.numberOfBytesSent

/-- A receive of `data` into the whole buffer. -/
theorem receive_sound (h : c.Sound) {buf : Nat} {data : ByteString} (hlen : buf + data.length ≤ bufferSize) :
    (c.receive buf data).Sound where
  buffer := by
    have hbuffer := h.buffer
    simp only [receive, List.length_append, List.length_take, List.length_drop]
    omega
  sent := h.sent.trans (List.prefix_append _ _)
  numberOfBytesSent := h.numberOfBytesSent
  numberOfBytesToSend := h.numberOfBytesToSend

theorem receive_fits {buf : WsaBuf} {data : ByteString} (hfits : c.Fits (.recv buf))
    (hlen : data.length ≤ buf.len.toNat) :
    (c.receive buf.buf data).Fits (.done (UInt32.ofNat data.length)) := by
  obtain ⟨hlast, hwsa, rfl, hsent⟩ := hfits
  have hle : data.length ≤ bufferSize := hlen
  have hn : (UInt32.ofNat data.length).toNat = data.length := by
    rw [UInt32.toNat_ofNat_of_lt']
    exact Nat.lt_of_le_of_lt hle (by decide)
  refine ⟨hwsa, .inl ⟨hlast, by rw [hn]; exact hle, ?_⟩⟩
  rw [hn]
  simp [receive, hsent]

theorem transmit_sound (h : c.Sound) {buf : WsaBuf} (hfits : c.Fits (.send buf)) {n : Nat} (hn : n ≤ buf.len.toNat) :
    (c.transmit buf.buf n).Sound where
  buffer := h.buffer
  sent := by
    obtain ⟨-, -, -, hreceived⟩ := hfits
    show c.sent ++ (c.buffer.drop buf.buf).take n <+: c.received
    rw [hreceived]
    exact (List.prefix_append_right_inj _).mpr (List.take_prefix_take_left hn)
  numberOfBytesSent := h.numberOfBytesSent
  numberOfBytesToSend := h.numberOfBytesToSend

theorem transmit_fits (h : c.Sound) {buf : WsaBuf} (hfits : c.Fits (.send buf)) {n : Nat} (hn : n ≤ buf.len.toNat) :
    (c.transmit buf.buf n).Fits (.done (UInt32.ofNat n)) := by
  obtain ⟨hlast, hwsa, rfl, hreceived⟩ := hfits
  rw [h.sub_toNat] at hn hreceived
  have hbound := h.numberOfBytesToSend
  have hle := UInt32.le_iff_toNat_le.mp h.numberOfBytesSent
  have hnat : (UInt32.ofNat n).toNat = n := by
    rw [UInt32.toNat_ofNat_of_lt']
    simp only [bufferSize, UInt32.size] at hbound ⊢
    omega
  refine ⟨hwsa, .inr ⟨hlast, ?_, ?_⟩⟩
  · rw [hnat]
    show c.numberOfBytesSent.toNat + n ≤ c.numberOfBytesToSend.toNat
    omega
  · rw [hnat]
    show c.received = c.sent ++ (c.buffer.drop c.numberOfBytesSent.toNat).take n ++
      (c.buffer.drop (c.numberOfBytesSent.toNat + n)).take
        (c.numberOfBytesToSend.toNat - (c.numberOfBytesSent.toNat + n))
    have hsplit : c.numberOfBytesToSend.toNat - c.numberOfBytesSent.toNat =
        n + (c.numberOfBytesToSend.toNat - (c.numberOfBytesSent.toNat + n)) := by omega
    rw [hreceived, List.append_assoc, hsplit, List.take_add, List.drop_drop]

/-- A receive has completed: the send that echoes it. -/
theorem received_fits {n : UInt32} (h : c.Sound) (hfits : c.Fits (.done n)) (hlast : c.lastOption = .recv)
    {c' : ClientContext}
    (hc' : c' = { c with
      lastOption := .send, numberOfBytesToSend := n, numberOfBytesSent := 0, wsaBuf := { c.wsaBuf with len := n } }) :
    c'.Sound ∧ c'.Fits (.send { c.wsaBuf with len := n }) := by
  subst hc'
  obtain ⟨hwsa, ⟨-, hn, hreceived⟩ | ⟨hsend, -⟩⟩ := hfits
  · refine ⟨⟨h.buffer, h.sent, UInt32.zero_le, hn⟩, rfl, hwsa, ?_, ?_⟩
    · simp [hwsa]
    · simpa [hwsa] using hreceived
  · rw [hlast] at hsend
    cases hsend

theorem add_toNat {n : UInt32} (h : c.Sound)
    (hn : c.numberOfBytesSent.toNat + n.toNat ≤ c.numberOfBytesToSend.toNat) :
    (c.numberOfBytesSent + n).toNat = c.numberOfBytesSent.toNat + n.toNat := by
  have hbound := h.numberOfBytesToSend
  rw [UInt32.toNat_add, Nat.mod_eq_of_lt]
  simp only [bufferSize] at hbound
  omega

/-- A part of a send has completed: the send of the rest. -/
theorem sentPart_fits {n : UInt32} (h : c.Sound) (hfits : c.Fits (.done n)) (hlast : c.lastOption = .send)
    {c' : ClientContext} (hc' : c' = { c with lastOption := .send, numberOfBytesSent := c.numberOfBytesSent + n }) :
    c'.Sound ∧
      c'.Fits (.send ⟨(c.numberOfBytesSent + n).toNat, c.numberOfBytesToSend - (c.numberOfBytesSent + n)⟩) := by
  subst hc'
  obtain ⟨hwsa, ⟨hrecv, -⟩ | ⟨-, hn, hreceived⟩⟩ := hfits
  · rw [hlast] at hrecv
    cases hrecv
  · have hadd := add_toNat h hn
    have hsound : ClientContext.Sound { c with lastOption := .send, numberOfBytesSent := c.numberOfBytesSent + n } :=
      ⟨h.buffer, h.sent, UInt32.le_iff_toNat_le.mpr (hadd ▸ hn), h.numberOfBytesToSend⟩
    refine ⟨hsound, rfl, hwsa, rfl, ?_⟩
    have hsub := hsound.sub_toNat
    simp only at hsub
    simp only [hsub, hadd]
    exact hreceived

/-- All of a send has completed: the next receive. -/
theorem sentAll_fits {n : UInt32} (h : c.Sound) (hfits : c.Fits (.done n)) (hlast : c.lastOption = .send)
    (hall : ¬c.numberOfBytesSent + n < c.numberOfBytesToSend) {c' : ClientContext}
    (hc' : c' = { c with lastOption := .recv, numberOfBytesSent := c.numberOfBytesSent + n }) :
    c'.Sound ∧ c'.Fits (.recv ⟨0, UInt32.ofNat c.buffer.length⟩) := by
  subst hc'
  obtain ⟨hwsa, ⟨hrecv, -⟩ | ⟨-, hn, hreceived⟩⟩ := hfits
  · rw [hlast] at hrecv
    cases hrecv
  · have hadd := add_toNat h hn
    rw [UInt32.lt_iff_toNat_lt, hadd] at hall
    have hzero : c.numberOfBytesToSend.toNat - (c.numberOfBytesSent.toNat + n.toNat) = 0 := by omega
    refine ⟨⟨h.buffer, h.sent, UInt32.le_iff_toNat_le.mpr (hadd ▸ hn), h.numberOfBytesToSend⟩, rfl, hwsa, ?_, ?_⟩
    · rw [h.buffer]
    · simpa [hzero] using hreceived.symm

end ClientContext

/-! ### The invariant -/

/-- What the holder of the context at `p` knows: it is in the map under its id, and it is the holder's. -/
def Shared.Knows (s : Shared) (p : ContextPtr) (x : Option UInt32 × Stage) : Prop :=
  ∃ c, s.contexts[p]? = some c ∧ s.clientContexts[c.id]? = some p ∧ c.id ≠ invalidClientContextId ∧
    (∀ key ∈ x.1, key = c.id) ∧ c.Fits x.2

/-- A thread that has a key has the context that belongs to it. -/
def Thread.HasContext : Thread → Prop
  | .pool (.lookup _ _ q) | .pool (.remove _ q) => q ≠ none
  | _ => True

/-- What holds in every state that is reached. -/
structure Inv (s : Config Shared Thread) : Prop where
  sound : ∀ c ∈ s.shared.contexts, c.Sound
  held : Exclusive s.shared.Knows (hands s)
  wakes : ∀ packet ∈ s.shared.port, packet.overlapped = none → packet.key = invalidClientContextId
  threads : ∀ t ∈ s.threads, t.HasContext

/-- How the hands that a step takes turn into those that it leaves. -/
inductive Passes (s s' : Shared) : List Hand → List Hand → Prop
  | keep : (∀ q x, s.Knows q x → s'.Knows q x) → Passes s s' [] []
  | pass {p : ContextPtr} {x x' : Option UInt32 × Stage} : (∀ q y, q ≠ p → s.Knows q y → s'.Knows q y) →
      s'.Knows p x' → Passes s s' [(p, x)] [(p, x')]
  | release {p : ContextPtr} {x : Option UInt32 × Stage} : (∀ q y, q ≠ p → s.Knows q y → s'.Knows q y) →
      Passes s s' [(p, x)] []
  | acquire {p : ContextPtr} {x : Option UInt32 × Stage} : (∀ y, ¬s.Knows p y) →
      (∀ q y, s.Knows q y → s'.Knows q y) → s'.Knows p x → Passes s s' [] [(p, x)]

namespace Shared
variable {s s' : Shared} {p q : ContextPtr} {c c' : ClientContext} {x y : Option UInt32 × Stage} {id : UInt32}

theorem Knows.congr (hcontexts : s'.contexts = s.contexts) (hmap : s'.clientContexts = s.clientContexts)
    (h : s.Knows q y) : s'.Knows q y := by
  unfold Knows
  rw [hcontexts, hmap]
  exact h

/-- What a holder knows before a step that does not touch its context, it knows afterwards. -/
theorem Knows.other (hmap : s'.clientContexts = s.clientContexts) (hcontexts : s'.contexts[q]? = s.contexts[q]?)
    (h : s.Knows q y) : s'.Knows q y := by
  obtain ⟨c, hc, hrest⟩ := h
  exact ⟨c, hcontexts.trans hc, by rw [hmap]; exact hrest⟩

/-- A holder changes its context. -/
theorem Knows.update (hmap : s'.clientContexts = s.clientContexts) (h : s.Knows p x) (hc : s.contexts[p]? = some c)
    (hc' : s'.contexts[p]? = some c') (hid : c'.id = c.id) {key : Option UInt32} (hkey : ∀ k ∈ key, k = c.id)
    {stage : Stage} (hfits : c'.Fits stage) : s'.Knows p (key, stage) := by
  obtain ⟨d, hd, hin, hne, -⟩ := h
  obtain rfl := Option.some.inj (hd.symm.trans hc)
  exact ⟨c', hc', by rw [hmap, hid]; exact hin, by rw [hid]; exact hne, fun k hk => (hkey k hk).trans hid.symm, hfits⟩

theorem Knows.context (h : s.Knows p x) (hc : s.contexts[p]? = some c) : c.Fits x.2 ∧ ∀ key ∈ x.1, key = c.id := by
  obtain ⟨d, hd, -, -, hkey, hfits⟩ := h
  obtain rfl := Option.some.inj (hd.symm.trans hc)
  exact ⟨hfits, hkey⟩

theorem Knows.lookup {key : UInt32} {stage : Stage} (h : s.Knows p (some key, stage)) :
    s.clientContexts[key]? = some p := by
  obtain ⟨c, -, hin, -, hkey, -⟩ := h
  rw [hkey key rfl]
  exact hin

/-- The map without the context of a holder. -/
theorem Knows.erase {key : UInt32} {stage : Stage} (h : s.Knows p (some key, stage)) (hq : q ≠ p) (hy : s.Knows q y) :
    (Act.apply (.erase key) s).Knows q y := by
  obtain ⟨c, hc, hin, hne, hkey, hfits⟩ := hy
  refine ⟨c, hc, ?_, hne, hkey, hfits⟩
  show (s.clientContexts.erase key)[c.id]? = some q
  rw [Std.TreeMap.getElem?_erase, if_neg, hin]
  rw [Std.compare_eq_iff_eq]
  rintro rfl
  exact hq (Option.some.inj (hin.symm.trans h.lookup))

end Shared

theorem firstFree_eq_some {clientContexts : Std.TreeMap UInt32 ContextPtr} {fuel : Nat} {id id' : UInt32}
    (h : firstFree clientContexts fuel id = some id') : id' ∉ clientContexts ∧ id' ≠ invalidClientContextId := by
  induction fuel generalizing id with
  | zero => cases h
  | succ fuel ih =>
    rw [firstFree] at h
    split at h
    · exact ih h
    · next hfree =>
      cases h
      rw [Bool.or_eq_true, not_or] at hfree
      exact ⟨hfree.1, by simpa using hfree.2⟩

theorem Passes.exclusive {s s' : Shared} {taken left rest : List Hand} (h : Passes s s' taken left)
    (hheld : Exclusive s.Knows (taken ++ rest)) : Exclusive s'.Knows (left ++ rest) := by
  cases h with
  | keep hmono => exact hheld.mono hmono
  | pass hother hnew => exact hheld.replace hother hnew
  | release hother => exact hheld.release hother
  | acquire hfresh hmono hnew => exact hheld.acquire hfresh hmono hnew

section Passing
variable {s : Config Shared Thread} {i : Nat} {t t' : Thread} {a : Act} {p : ContextPtr} {x : Option UInt32 × Stage}

theorem Inv.knows_thread (hI : Inv s) (ht : t ∈ s.threads) (hhand : t.hand = some (p, x)) : s.shared.Knows p x :=
  hI.held.knows (p, x) (List.mem_append_left _ (List.mem_filterMap.mpr ⟨t, ht, hhand⟩))

theorem Inv.knows_posted (hI : Inv s) {o : Overlapped} (ho : o ∈ s.shared.posted) :
    s.shared.Knows o.hand.1 o.hand.2 :=
  hI.held.knows o.hand (List.mem_append_right _ (List.mem_append_left _ (List.mem_map_of_mem ho)))

theorem Inv.knows_port (hI : Inv s) {packet : Packet} (hp : packet ∈ s.shared.port)
    (hhand : packet.hand = some (p, x)) : s.shared.Knows p x :=
  hI.held.knows (p, x)
    (List.mem_append_right _ (List.mem_append_right _ (List.mem_filterMap.mpr ⟨packet, hp, hhand⟩)))

/-- A thread changes the context that it holds. -/
theorem Inv.passes_assign (hI : Inv s) (ht : t ∈ s.threads) (hhand : t.hand = some (p, x)) {c c' : ClientContext}
    (hc : s.shared.contexts[p]? = some c) {stage : Stage} (hfits : c'.Fits stage) (hid : c'.id = c.id) :
    Passes s.shared (Act.apply (.assign p c') s.shared) [(p, x)] [(p, none, stage)] := by
  obtain ⟨hlt, -⟩ := List.getElem?_eq_some_iff.mp hc
  have hmap : (Act.apply (.assign p c') s.shared).clientContexts = s.shared.clientContexts := rfl
  have hc' : (Act.apply (.assign p c') s.shared).contexts[p]? = some c' := by simp [Act.apply, hlt]
  refine .pass (fun q y hq hy => hy.other hmap (List.getElem?_set_ne (Ne.symm hq))) ?_
  exact (hI.knows_thread ht hhand).update hmap hc hc' hid (fun _ hk => by cases hk) hfits

/-- The kernel changes the context of an operation. -/
theorem Inv.passes_complete (hI : Inv s) {o : Overlapped} (ho : o ∈ s.shared.posted) {c : ClientContext}
    (hc : s.shared.contexts[o.overlapped]? = some c) (f : ClientContext → ClientContext) (s' : Shared)
    (hmap : s'.clientContexts = s.shared.clientContexts)
    (hcontexts : s'.contexts = s.shared.contexts.modify o.overlapped f) (hid : (f c).id = c.id) {stage : Stage}
    (hfits : (f c).Fits stage) : Passes s.shared s' [o.hand] [(o.overlapped, some o.key, stage)] := by
  have hknows := hI.knows_posted ho
  have hhand : ∃ st, o.hand = (o.overlapped, some o.key, st) := by
    unfold Overlapped.hand
    split
    · exact ⟨_, rfl⟩
    · exact ⟨_, rfl⟩
  obtain ⟨st, hst⟩ := hhand
  rw [hst] at hknows ⊢
  have hc' : s'.contexts[o.overlapped]? = some (f c) := by simp [hcontexts, hc]
  refine .pass (fun q y hq hy => hy.other hmap ?_) (hknows.update hmap hc hc' hid (hknows.context hc).2 hfits)
  simp [hcontexts, Ne.symm hq]

/-- A step that only looks, posts or takes passes its context on, to a holder that knows no more. -/
theorem Inv.passes_keep {s' : Shared} (hcontexts : s'.contexts = s.shared.contexts)
    (hmap : s'.clientContexts = s.shared.clientContexts) : Passes s.shared s' [] [] :=
  .keep fun _ _ h => h.congr hcontexts hmap

theorem Inv.passes_on (s' : Shared) (hcontexts : s'.contexts = s.shared.contexts)
    (hmap : s'.clientContexts = s.shared.clientContexts) {x' : Option UInt32 × Stage} (h : s.shared.Knows p x') :
    Passes s.shared s' [(p, x)] [(p, x')] :=
  .pass (fun _ _ _ h => h.congr hcontexts hmap) (h.congr hcontexts hmap)

theorem Shared.Knows.weaken {s : Shared} {c : ClientContext} (h : s.Knows p x) (hc : s.contexts[p]? = some c)
    {key : Option UInt32} (hkey : ∀ k ∈ key, k = c.id) {stage : Stage} (hfits : c.Fits stage) :
    s.Knows p (key, stage) :=
  h.update rfl hc hc rfl hkey hfits

/-- A thread posts an operation for the context that it holds. -/
theorem Inv.passes_post (hI : Inv s) (ht : t ∈ s.threads) (hhand : t.hand = some (p, x)) {c : ClientContext}
    (hc : s.shared.contexts[p]? = some c) {o : Overlapped} {stage : Stage} (ho : o.hand = (p, some c.id, stage))
    (hfits : c.Fits stage) : Passes s.shared (Act.apply (.post o) s.shared) [(p, x)] [o.hand] := by
  rw [ho]
  refine Inv.passes_on (Act.apply (.post o) s.shared) rfl rfl ((hI.knows_thread ht hhand).weaken hc (fun k hk => ?_) hfits)
  exact (Option.some.inj hk).symm

/-- A call for the context that a thread holds fails. -/
theorem Inv.passes_last (hI : Inv s) (ht : t ∈ s.threads) (hhand : t.hand = some (p, x)) {c : ClientContext}
    (hc : s.shared.contexts[p]? = some c) : Passes s.shared s.shared [(p, x)] [(p, some c.id, .last)] := by
  refine Inv.passes_on s.shared rfl rfl ((hI.knows_thread ht hhand).weaken hc (fun k hk => ?_) trivial)
  exact (Option.some.inj hk).symm

/-- A new context gets an id that is not in the map. -/
theorem Passes.create {x : Shared} {id : UInt32} (hid : firstFree x.clientContexts (2 ^ 32) x.id = some id) :
    Passes x (Act.apply (.create id) x) [] [(x.contexts.length, none, .fresh)] := by
  obtain ⟨hnew, hne⟩ := firstFree_eq_some hid
  have hsame : ∀ q y, x.Knows q y → (Act.apply (.create id) x).Knows q y := by
    rintro q y ⟨c, hc, hin, hrest⟩
    obtain ⟨hlt, -⟩ := List.getElem?_eq_some_iff.mp hc
    refine ⟨c, by simpa [Act.apply, List.getElem?_append_left hlt] using hc, ?_, hrest⟩
    show (x.clientContexts.insert id x.contexts.length)[c.id]? = some q
    rw [Std.TreeMap.getElem?_insert, if_neg, hin]
    rw [Std.compare_eq_iff_eq]
    rintro rfl
    exact hnew (Std.TreeMap.mem_iff_isSome_getElem?.mpr (by rw [hin]; rfl))
  refine .acquire (fun y hy => ?_) hsame ⟨{ id := id }, ?_, ?_, hne, fun _ hk => (by cases hk), rfl⟩
  · obtain ⟨c, hc, -⟩ := hy
    simp at hc
  · simp [Act.apply]
  · show (x.clientContexts.insert id x.contexts.length)[id]? = some _
    simp

/-- A packet is taken from the port, and nobody goes on with its context. -/
theorem Passes.drop {x x' : Shared} {hand : Option Hand} (hcontexts : x'.contexts = x.contexts)
    (hmap : x'.clientContexts = x.clientContexts) : Passes x x' hand.toList [] := by
  cases hand with
  | none => exact .keep fun _ _ h => h.congr hcontexts hmap
  | some hand => exact .release fun _ _ _ h => h.congr hcontexts hmap

/-- A packet with a result is one of a posted operation, unless it is there to wake the thread up. -/
theorem Inv.hand_of_packet (hI : Inv s) {packet : Packet} (hmem : packet ∈ s.shared.port)
    (hresult : packet.result = true) (hkey : packet.key ≠ invalidClientContextId) : ∃ p,
      packet.overlapped = some p ∧ packet.hand = some (p, some packet.key, .done packet.numberOfBytes) ∧
      s.shared.Knows p (some packet.key, .done packet.numberOfBytes) := by
  cases hover : packet.overlapped with
  | none => exact absurd (hI.wakes packet hmem hover) hkey
  | some p =>
    have hhand : packet.hand = some (p, some packet.key, .done packet.numberOfBytes) := by
      simp [Packet.hand, hover, hresult]
    exact ⟨p, rfl, hhand, hI.knows_port hmem hhand⟩

theorem Step.passes (hI : Inv s) (ht : t ∈ s.threads) (h : Step s.shared t a t') :
    Passes s.shared (a.apply s.shared) (t.hand.toList ++ a.takes s.shared) (t'.hand.toList ++ a.gives) := by
  cases h with
  | acceptLoop hpc =>
    rcases hpc with rfl | rfl
    · exact Inv.passes_keep rfl rfl
    · exact Inv.passes_keep rfl rfl
  | acceptWait hpc =>
    rcases hpc with rfl | rfl
    · exact Inv.passes_keep rfl rfl
    · exact Inv.passes_keep rfl rfl
  | create hid => exact .create hid
  | associate => exact Inv.passes_on s.shared rfl rfl (hI.knows_thread ht rfl)
  | associateFailed => exact .release fun _ _ _ h => h.congr rfl rfl
  | @prepare p c hc =>
    have hfits := (hI.knows_thread ht rfl).context hc
    have hbuffer := (hI.sound c (List.mem_of_getElem? hc)).buffer
    have hfirst : ClientContext.Fits
        { c with wsaBuf := ⟨0, UInt32.ofNat c.buffer.length⟩, lastOption := .recv } .first :=
      ⟨rfl, by rw [hbuffer], hfits.1⟩
    exact hI.passes_assign ht rfl hc hfirst rfl
  | @acceptRecv p c hc =>
    obtain ⟨hlast, hwsa, hsent⟩ := ((hI.knows_thread ht rfl).context hc).1
    have hrecv : c.Fits (.recv c.wsaBuf) := ⟨hlast, by rw [hwsa], hwsa, hsent⟩
    exact hI.passes_post ht rfl hc rfl hrecv
  | @acceptRecvFailed p c hc => exact hI.passes_last ht rfl hc
  | acceptRemove => exact .release fun q y hq hy => (hI.knows_thread ht rfl).erase hq hy
  | poolLoop hpc =>
    rcases hpc with rfl | rfl
    · exact Inv.passes_keep rfl rfl
    · exact Inv.passes_keep rfl rfl
  | @failed packet port hport hresult =>
    have htakes : Act.takes s.shared .dequeueFailed = packet.hand.toList := by simp [Act.takes, hport]
    rw [htakes]
    exact .drop rfl rfl
  | @woken packet port hport hresult hkey =>
    have htakes : Act.takes s.shared .dequeue = packet.hand.toList := by simp [Act.takes, hport]
    rw [htakes]
    exact .drop rfl rfl
  | @ended packet port hport hresult hkey hn =>
    have htakes : Act.takes s.shared .dequeue = packet.hand.toList := by simp [Act.takes, hport]
    obtain ⟨p, hover, hhand, hknows⟩ := hI.hand_of_packet (by simp [hport]) hresult hkey
    have hcontext := hknows
    obtain ⟨c, hc, -, -, hk, -⟩ := hcontext
    rw [htakes, hhand, hover]
    have hlast : c.Fits .last := trivial
    exact Inv.passes_on (Act.apply .dequeue s.shared) rfl rfl (hknows.weaken hc hk hlast)
  | @transferred packet port hport hresult hkey hn =>
    have htakes : Act.takes s.shared .dequeue = packet.hand.toList := by simp [Act.takes, hport]
    obtain ⟨p, hover, hhand, hknows⟩ := hI.hand_of_packet (by simp [hport]) hresult hkey
    rw [htakes, hhand, hover]
    exact Inv.passes_on (Act.apply .dequeue s.shared) rfl rfl hknows
  | @found key n q p hp =>
    cases q with
    | none => exact absurd rfl (hI.threads _ ht)
    | some q =>
      have hknows := hI.knows_thread (x := (some key, .done n)) ht rfl
      obtain rfl := Option.some.inj (hp.symm.trans hknows.lookup)
      have hcontext := hknows
      obtain ⟨c, hc, -, -, -, hfits⟩ := hcontext
      exact Inv.passes_on s.shared rfl rfl (hknows.weaken hc (fun _ hk => by cases hk) hfits)
  | @missing key n q hp =>
    cases q with
    | none => exact absurd rfl (hI.threads _ ht)
    | some q => exact .release fun _ _ _ h => h.congr rfl rfl
  | @received p n c hc hlast =>
    have hfits := (hI.knows_thread ht rfl).context hc
    obtain ⟨-, hfits'⟩ := ClientContext.received_fits (hI.sound c (List.mem_of_getElem? hc)) hfits.1 hlast rfl
    exact hI.passes_assign ht rfl hc hfits' rfl
  | @sentPart p n c hc hlast hlt =>
    have hfits := (hI.knows_thread ht rfl).context hc
    obtain ⟨-, hfits'⟩ := ClientContext.sentPart_fits (hI.sound c (List.mem_of_getElem? hc)) hfits.1 hlast rfl
    exact hI.passes_assign ht rfl hc hfits' rfl
  | @sentAll p n c hc hlast hlt =>
    have hfits := (hI.knows_thread ht rfl).context hc
    obtain ⟨-, hfits'⟩ := ClientContext.sentAll_fits (hI.sound c (List.mem_of_getElem? hc)) hfits.1 hlast hlt rfl
    exact hI.passes_assign ht rfl hc hfits' rfl
  | @unknown p n c hc hlast => exact .release fun _ _ _ h => h.congr rfl rfl
  | @send p buf c hc => exact hI.passes_post ht rfl hc rfl ((hI.knows_thread ht rfl).context hc).1
  | @sendFailed p buf c hc => exact hI.passes_last ht rfl hc
  | @recv p buf c hc => exact hI.passes_post ht rfl hc rfl ((hI.knows_thread ht rfl).context hc).1
  | @recvFailed p buf c hc => exact hI.passes_last ht rfl hc
  | @poolRemove key q =>
    cases q with
    | none => exact absurd rfl (hI.threads _ ht)
    | some q => exact .release fun _ _ hq hy => (hI.knows_thread ht rfl).erase hq hy
  | @completeRecv i o result data ho hop hle =>
    have hmem := List.mem_of_getElem? ho
    have hknows := hI.knows_posted hmem
    have hhand : o.hand = (o.overlapped, some o.key, .recv o.buf) := by simp [Overlapped.hand, hop]
    rw [hhand] at hknows
    obtain ⟨c, hc, -, -, -, hfits⟩ := hknows
    refine hI.passes_complete hmem hc (fun c => c.receive o.buf.buf data)
      (Act.apply (.completeRecv i o result data) s.shared) rfl rfl rfl ?_
    cases result with
    | true => exact ClientContext.receive_fits hfits hle
    | false => trivial
  | @completeSend i o result n ho hop hle =>
    have hmem := List.mem_of_getElem? ho
    have hknows := hI.knows_posted hmem
    have hhand : o.hand = (o.overlapped, some o.key, .send o.buf) := by simp [Overlapped.hand, hop]
    rw [hhand] at hknows
    obtain ⟨c, hc, -, -, -, hfits⟩ := hknows
    refine hI.passes_complete hmem hc (fun c => c.transmit o.buf.buf n)
      (Act.apply (.completeSend i o result n) s.shared) rfl rfl rfl ?_
    cases result with
    | true => exact ClientContext.transmit_fits (hI.sound c (List.mem_of_getElem? hc)) hfits hle
    | false => trivial
  | stop => exact Inv.passes_keep rfl rfl
  | wake | wakeFailed => exact Inv.passes_keep rfl rfl

theorem mem_modify {α : Type} {l : List α} {i : Nat} {f : α → α} {y : α} (h : y ∈ l.modify i f) :
    y ∈ l ∨ ∃ z, l[i]? = some z ∧ y = f z := by
  obtain ⟨j, hj⟩ := List.getElem?_of_mem h
  rw [List.getElem?_modify] at hj
  obtain ⟨z, hz, heq⟩ := Option.map_eq_some_iff.mp hj
  by_cases hij : i = j
  · subst hij
    exact .inr ⟨z, hz, by simpa using heq.symm⟩
  · rw [if_neg hij] at heq
    exact .inl (heq ▸ List.mem_of_getElem? hz)

theorem Step.sound (hI : Inv s) (ht : t ∈ s.threads) (h : Step s.shared t a t') {c' : ClientContext}
    (hc' : c' ∈ (a.apply s.shared).contexts) : c'.Sound := by
  cases h with
  | create hid =>
    rcases List.mem_append.mp hc' with hmem | hmem
    · exact hI.sound c' hmem
    · obtain rfl := List.mem_singleton.mp hmem
      exact ⟨List.length_replicate, List.prefix_rfl, Std.le_refl _, Nat.zero_le _⟩
  | @prepare p c hc =>
    rcases List.mem_or_eq_of_mem_set hc' with hmem | rfl
    · exact hI.sound c' hmem
    · have hsound := hI.sound c (List.mem_of_getElem? hc)
      exact ⟨hsound.buffer, hsound.sent, hsound.numberOfBytesSent, hsound.numberOfBytesToSend⟩
  | @received p n c hc hlast =>
    rcases List.mem_or_eq_of_mem_set hc' with hmem | heq
    · exact hI.sound c' hmem
    · exact (ClientContext.received_fits (hI.sound c (List.mem_of_getElem? hc))
        ((hI.knows_thread ht rfl).context hc).1 hlast heq).1
  | @sentPart p n c hc hlast hlt =>
    rcases List.mem_or_eq_of_mem_set hc' with hmem | heq
    · exact hI.sound c' hmem
    · exact (ClientContext.sentPart_fits (hI.sound c (List.mem_of_getElem? hc))
        ((hI.knows_thread ht rfl).context hc).1 hlast heq).1
  | @sentAll p n c hc hlast hlt =>
    rcases List.mem_or_eq_of_mem_set hc' with hmem | heq
    · exact hI.sound c' hmem
    · exact (ClientContext.sentAll_fits (hI.sound c (List.mem_of_getElem? hc))
        ((hI.knows_thread ht rfl).context hc).1 hlast hlt heq).1
  | @completeRecv i o result data ho hop hle =>
    rcases mem_modify hc' with hmem | ⟨c, hc, rfl⟩
    · exact hI.sound c' hmem
    · have hknows := hI.knows_posted (List.mem_of_getElem? ho)
      have hhand : o.hand = (o.overlapped, some o.key, .recv o.buf) := by simp [Overlapped.hand, hop]
      rw [hhand] at hknows
      obtain ⟨-, -, hbuf, -⟩ := (hknows.context hc).1
      rw [hbuf] at hle ⊢
      exact ClientContext.receive_sound (hI.sound c (List.mem_of_getElem? hc)) (by rw [Nat.zero_add]; exact hle)
  | @completeSend i o result n ho hop hle =>
    rcases mem_modify hc' with hmem | ⟨c, hc, rfl⟩
    · exact hI.sound c' hmem
    · have hknows := hI.knows_posted (List.mem_of_getElem? ho)
      have hhand : o.hand = (o.overlapped, some o.key, .send o.buf) := by simp [Overlapped.hand, hop]
      rw [hhand] at hknows
      exact ClientContext.transmit_sound (hI.sound c (List.mem_of_getElem? hc)) (hknows.context hc).1 hle
  | _ => exact hI.sound c' hc'

theorem Step.wakes (hI : Inv s) (h : Step s.shared t a t') {packet : Packet} (hp : packet ∈ (a.apply s.shared).port)
    (hnone : packet.overlapped = none) : packet.key = invalidClientContextId := by
  cases h with
  | failed hport hresult => exact hI.wakes packet (List.mem_of_mem_tail hp) hnone
  | woken hport hresult hkey => exact hI.wakes packet (List.mem_of_mem_tail hp) hnone
  | ended hport hresult hkey hn => exact hI.wakes packet (List.mem_of_mem_tail hp) hnone
  | transferred hport hresult hkey hn => exact hI.wakes packet (List.mem_of_mem_tail hp) hnone
  | completeRecv ho hop hle =>
    rcases List.mem_append.mp hp with hmem | hmem
    · exact hI.wakes packet hmem hnone
    · obtain rfl := List.mem_singleton.mp hmem
      cases hnone
  | completeSend ho hop hle =>
    rcases List.mem_append.mp hp with hmem | hmem
    · exact hI.wakes packet hmem hnone
    · obtain rfl := List.mem_singleton.mp hmem
      cases hnone
  | wake =>
    rcases List.mem_append.mp hp with hmem | hmem
    · exact hI.wakes packet hmem hnone
    · obtain rfl := List.mem_singleton.mp hmem
      rfl
  | _ => exact hI.wakes packet hp hnone

theorem Step.hasContext (hI : Inv s) (h : Step s.shared t a t') : t'.HasContext := by
  cases h with
  | acceptLoop hpc => rcases hpc with rfl | rfl <;> trivial
  | acceptWait hpc => rcases hpc with rfl | rfl <;> trivial
  | poolLoop hpc => rcases hpc with rfl | rfl <;> trivial
  | @ended packet port hport hresult hkey hn =>
    exact fun hnone => hkey (hI.wakes packet (by simp [hport]) hnone)
  | @transferred packet port hport hresult hkey hn =>
    exact fun hnone => hkey (hI.wakes packet (by simp [hport]) hnone)
  | sendFailed hc => exact Option.some_ne_none _
  | recvFailed hc => exact Option.some_ne_none _
  | _ => trivial

theorem Inv.run (hI : Inv s) (hi : s.threads[i]? = some t) (h : Step s.shared t a t') :
    Inv ⟨a.apply s.shared, s.threads.set i t'⟩ := by
  have ht := List.mem_of_getElem? hi
  obtain ⟨rest, hbefore, hafter⟩ := h.hands hi
  refine ⟨fun c' hc' => h.sound hI ht hc', ?_, fun packet hp => h.wakes hI hp, fun u hu => ?_⟩
  · exact ((h.passes hI ht).exclusive (hI.held.perm hbefore)).perm hafter.symm
  · rcases List.mem_or_eq_of_mem_set hu with hmem | rfl
    · exact hI.threads u hmem
    · exact h.hasContext hI

end Passing

theorem start_inv (threadPoolSize : Nat) : Inv (start threadPoolSize) where
  sound c hc := by simp [start] at hc
  held := by
    have hnone : hands (start threadPoolSize) = [] := by
      simp [hands, start, Config.gather, Shared.hands, Thread.hand, AcceptPc.hand, PoolPc.hand]
    rw [hnone]
    exact ⟨List.nodup_nil, fun x hx => by cases hx⟩
  wakes packet hp := by simp [start] at hp
  threads t ht := by
    simp only [start, List.mem_cons, List.mem_replicate] at ht
    rcases ht with rfl | rfl | ⟨-, rfl⟩ <;> trivial

theorem reach_inv {rule : Rule Shared Thread Act Nat} {threadPoolSize : Nat} {s : Config Shared Thread}
    (h : Reach machine rule (start threadPoolSize) s) : Inv s := by
  induction h with
  | start => exact start_inv threadPoolSize
  | run _ _ hi hs _ ih => exact ih.run hi (Thread.step_cases hs)
  | @enter s n t _ hk _ ih =>
    cases hk
    refine ⟨ih.sound, ?_, ih.wakes, fun u hu => ?_⟩
    · have hands_eq : hands ⟨s.shared, s.threads ++ [Thread.stop false n]⟩ = hands s := by
        rw [hands, Config.gather_enter]
        simp [Thread.hand, hands]
      rw [hands_eq]
      exact ih.held
    · rcases List.mem_append.mp hu with hmem | hmem
      · exact ih.threads u hmem
      · obtain rfl := List.mem_singleton.mp hmem
        trivial

/-! ### What every run keeps -/

/-- The operations of a context that are posted or whose completion packet has not been taken. -/
def Shared.outstanding (s : Shared) (p : ContextPtr) : Nat :=
  (s.posted.map (·.overlapped)).count p + (s.port.filterMap (·.overlapped)).count p

theorem Overlapped.hand_fst (o : Overlapped) : o.hand.1 = o.overlapped := by
  unfold Overlapped.hand
  split <;> rfl

theorem Shared.hands_fst (s : Shared) :
    s.hands.map Prod.fst = s.posted.map (·.overlapped) ++ s.port.filterMap (·.overlapped) := by
  rw [Shared.hands, List.map_append, List.map_map, List.map_filterMap]
  congr 1
  · exact List.map_congr_left fun o _ => o.hand_fst
  · refine List.filterMap_congr fun packet _ => ?_
    cases h : packet.overlapped <;> simp [Packet.hand, h]

theorem count_hands (s : Config Shared Thread) (p : ContextPtr) :
    ((hands s).map Prod.fst).count p = ((s.gather Thread.hand).map Prod.fst).count p + s.shared.outstanding p := by
  rw [hands, List.map_append, List.count_append, Shared.hands_fst, List.count_append]
  rfl

/-- At every point of every run: what was sent to a client is a prefix of what was received from it, all of it when a
    receive is outstanding; the counters are in range, and a send that is outstanding covers exactly the bytes
    between them; and a context has at most one operation outstanding. -/
theorem echo_faithful (threadPoolSize : Nat) {s : Config Shared Thread}
    (h : Reach machine .any (start threadPoolSize) s) {p : ContextPtr} {c : ClientContext}
    (hc : s.shared.contexts[p]? = some c) :
    c.sent <+: c.received ∧
      (∀ o ∈ s.shared.posted, o.overlapped = p → o.operation = .recv → c.sent = c.received) ∧
      c.numberOfBytesSent ≤ c.numberOfBytesToSend ∧ c.numberOfBytesToSend.toNat ≤ c.buffer.length ∧
      (∀ o ∈ s.shared.posted, o.overlapped = p → o.operation = .send →
        o.buf.buf = c.numberOfBytesSent.toNat ∧ o.buf.buf + o.buf.len.toNat = c.numberOfBytesToSend.toNat) ∧
      s.shared.outstanding p ≤ 1 := by
  have hI := reach_inv h
  have hsound := hI.sound c (List.mem_of_getElem? hc)
  refine ⟨hsound.sent, fun o ho hp hop => ?_, hsound.numberOfBytesSent, ?_, fun o ho hp hop => ?_, ?_⟩
  · subst hp
    have hknows := hI.knows_posted ho
    rw [Overlapped.hand, hop] at hknows
    exact (hknows.context hc).1.2.2.2
  · rw [hsound.buffer]
    exact hsound.numberOfBytesToSend
  · subst hp
    have hknows := hI.knows_posted ho
    rw [Overlapped.hand, hop] at hknows
    obtain ⟨-, -, hbuf, -⟩ := (hknows.context hc).1
    have hle := UInt32.le_iff_toNat_le.mp hsound.numberOfBytesSent
    rw [hbuf, hsound.sub_toNat]
    exact ⟨rfl, Nat.add_sub_of_le hle⟩
  · have hcount := hI.held.count_le_one p
    rw [count_hands] at hcount
    omega

/-- Two bytes come in and the first of them is sent back. -/
theorem echo_faithful_short : ∃ (s : Config Shared Thread) (c : ClientContext),
    Reach machine .any (start 1) s ∧ s.shared.contexts[0]? = some c ∧ c.received = [104, 105] ∧ c.sent = [104] ∧
    c.sent <+: c.received ∧ s.shared.outstanding 0 ≤ 1 := by
  have hrun : (machine.exec (fun _ _ _ => true) (fun _ => true) (start 1)
      [.run 1 .go, .run 1 (.result true), .run 1 .go, .run 1 (.result true), .run 1 .go, .run 1 (.result true),
        .run 0 (.complete 0 true [104, 105] 0), .run 2 .go, .run 2 .go, .run 2 .go, .run 2 .go, .run 2 (.result true),
        .run 0 (.complete 0 true [] 1)]).any
      (fun s => s.shared.contexts[0]?.any fun c : ClientContext => c.received == [104, 105] && c.sent == [104]) = true := by
    decide +kernel
  obtain ⟨s, hs, hp⟩ := Reach.exists_of_exec Rule.any (fun _ _ _ _ => trivial) (fun _ _ => trivial) hrun
  obtain ⟨c, hc, hbytes⟩ := Option.any_eq_true _ _ |>.mp hp
  simp only [Bool.and_eq_true, beq_iff_eq] at hbytes
  have hfaithful := echo_faithful 1 hs hc
  exact ⟨s, c, hs, hc, hbytes.1, hbytes.2, hfaithful.1, hfaithful.2.2.2.2.2⟩

end Iocp
