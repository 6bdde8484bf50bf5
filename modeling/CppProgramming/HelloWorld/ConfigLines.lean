import CppProgramming.HelloWorld.AbstractConfig

/-! # The lines of a configuration file

What `init` leaves in the items is the reading of the lines by their keys; so the lines are independent exactly when
those that throw do no harm. -/

namespace HelloWorld.Config
open Assignments

/-! ### Items -/

section Items
variable {item : ConfigItem} {items : List ConfigItem} {k v : ByteString} {s : State}

theorem set_of_ne (h : k ≠ item.name) (v : ByteString) : item.set k v = pure false := by
  rw [ConfigItem.set, if_pos h]

theorem set_self (item : ConfigItem) (v : ByteString) :
    item.set item.name v = (do item.assign v; return true) := by
  rw [ConfigItem.set, if_neg (not_not_intro rfl)]

/-- At most one of the items has the name. -/
theorem setItems_eq (h : (items.map ConfigItem.name).Nodup) (k v : ByteString) :
    (items.forM fun item => do let _ ← item.set k v) =
      (items.find? fun item => item.name = k).elim (pure ()) fun item => item.assign v := by
  induction items with
  | nil => rfl
  | cons item items ih =>
    obtain ⟨hnot, hnodup⟩ := List.nodup_cons.mp h
    show (do (do let _ ← item.set k v); items.forM fun item => do let _ ← item.set k v) = _
    rw [ih hnodup]
    by_cases hk : item.name = k
    · subst hk
      have hnone : (items.find? fun i => i.name = item.name) = none := by
        refine List.find?_eq_none.mpr fun i hi heq => hnot ?_
        exact List.mem_map.mpr ⟨i, hi, of_decide_eq_true heq⟩
      rw [set_self, hnone, List.find?_cons_of_pos (by simp)]
      simp
    · rw [set_of_ne (Ne.symm hk), List.find?_cons_of_neg (by simpa using hk)]
      simp

end Items

/-! ### Lines -/

/-- The key and the value of a line that has both. -/
def keyValue (line : ByteString) : Option (ByteString × ByteString) :=
  if (trim line).head? = some 35 ∨ trim line = [] then none
  else
    match (trim line).splitOn 61 with
    | [k, v] => some (trim k, trim v)
    | _ => none

section Lines
variable (c : ConfigClass)

/-- The item that a key names first. -/
def ConfigClass.find (k : ByteString) : Option ConfigItem := (LOG_LEVEL :: c.items).find? fun item => item.name = k

/-- What `setConfig` does to the item of its key. -/
def ConfigClass.effect (k v : ByteString) : Effect (Option Value) :=
  match c.find k with
  | none => .ignore
  | some item =>
    match item.parser v with
    | .ok x => .assign (some x)
    | .error _ => .fail

/-- The key of a line and what the line does to its value. -/
def ConfigClass.read (line : ByteString) : Option (ByteString × Effect (Option Value)) :=
  (keyValue line).map fun kv => (kv.1, c.effect kv.1 kv.2)

/-- The default of the item with a name. -/
def ConfigClass.default (k : ByteString) : Option Value :=
  (c.find k).bind fun item => (item.parser item.default).toOption

theorem loadLine_eq (line : ByteString) :
    c.loadLine line = (keyValue line).elim (pure ()) fun kv => c.setConfig kv.1 kv.2 := by
  simp only [ConfigClass.loadLine, keyValue]
  split
  · rfl
  · rcases (trim line).splitOn 61 with _ | ⟨k, _ | ⟨v, _ | ⟨x, kv⟩⟩⟩ <;> rfl

variable {c}

theorem find_name {k : ByteString} {item : ConfigItem} (h : c.find k = some item) : item.name = k := by
  have hname := List.find?_some h
  exact of_decide_eq_true hname

/-- How a call of `setConfig` can go. -/
inductive Sets (c : ConfigClass) (k v : ByteString) (s : State) : Prop
  | ignored (heffect : c.effect k v = .ignore) (hrun : c.setConfig k v s = .ok () s)
  | assigned (x : Value) (s' : State) (heffect : c.effect k v = .assign (some x))
      (hrun : c.setConfig k v s = .ok () s') (hvalues : s'.values = Function.update s.values k (some x))
  | thrown (e : ByteString.StoiError) (heffect : c.effect k v = .fail) (hrun : c.setConfig k v s = .error e s)

theorem setConfig_sets (c : ConfigClass) (k v : ByteString) (s : State) : Sets c k v s := by
  have hnodup : (c.items.map ConfigItem.name).Nodup := (List.nodup_cons.mp c.nodup).2
  by_cases hk : LOG_LEVEL.name = k
  · subst hk
    have hnone : (c.items.find? fun item => item.name = LOG_LEVEL.name) = none := by
      refine List.find?_eq_none.mpr fun i hi heq => (List.nodup_cons.mp c.nodup).1 ?_
      exact List.mem_map.mpr ⟨i, hi, of_decide_eq_true heq⟩
    let values := Function.update s.values LOG_LEVEL.name (some (.logLevel (parseLogLevel v)))
    refine .assigned (.logLevel (parseLogLevel v)) ⟨values, values LOG_LEVEL.name⟩ ?_ ?_ rfl
    · rw [ConfigClass.effect, ConfigClass.find, List.find?_cons_of_pos (by simp)]
      rfl
    rw [ConfigClass.setConfig, set_self, setItems_eq hnodup, hnone]
    rfl
  · have hfind : c.find k = c.items.find? fun item => item.name = k :=
      List.find?_cons_of_neg (by simpa using hk)
    have hrun : c.setConfig k v = (c.find k).elim (pure ()) fun item => item.assign v := by
      rw [ConfigClass.setConfig, set_of_ne (Ne.symm hk), setItems_eq hnodup, hfind]
      rfl
    cases hitem : c.find k with
    | none =>
      refine .ignored ?_ ?_
      · rw [ConfigClass.effect, hitem]
      · rw [hrun, hitem]
        rfl
    | some item =>
      have hname := find_name hitem
      rw [hitem] at hrun
      cases hparse : item.parser v with
      | ok x =>
        refine .assigned x { s with values := Function.update s.values k (some x) } ?_ ?_ rfl
        · simp only [ConfigClass.effect, hitem, hparse]
        · rw [hrun, ← hname]
          simp only [Option.elim_some, ConfigItem.assign, hparse]
      | error e =>
        refine .thrown e ?_ ?_
        · simp only [ConfigClass.effect, hitem, hparse]
        · rw [hrun]
          simp only [Option.elim_some, ConfigItem.assign, hparse]

/-! ### Runs -/

/-- The state in which a call has ended. -/
def lastState {α : Type} : EStateM.Result ByteString.StoiError State α → State
  | .ok _ s => s
  | .error _ s => s

theorem bind_ok {α β : Type} {x : Exec α} {f : α → Exec β} {s s' : State} {a : α} (h : x s = .ok a s') :
    (x >>= f) s = f a s' := by
  simp only [bind, EStateM.bind, h]

theorem bind_error {α β : Type} {x : Exec α} {f : α → Exec β} {s s' : State} {e : ByteString.StoiError}
    (h : x s = .error e s') : (x >>= f) s = .error e s' := by
  simp only [bind, EStateM.bind, h]

/-- The lines leave every item at its last assignment that was executed. -/
theorem lines_values (c : ConfigClass) (lines : List ByteString) (s : State) :
    (lastState (lines.forM c.loadLine s)).values = result c.read s.values lines := by
  induction lines generalizing s with
  | nil => rfl
  | cons line lines ih =>
    have hrun : (line :: lines).forM c.loadLine s = (c.loadLine line >>= fun _ => lines.forM c.loadLine) s := rfl
    rw [hrun]
    cases hkv : keyValue line with
    | none =>
      have hline : c.loadLine line = pure () := by rw [loadLine_eq, hkv]; rfl
      have hread : c.read line = none := by rw [ConfigClass.read, hkv]; rfl
      rw [hline, result_cons_of_none hread]
      exact ih s
    | some kv =>
      have hline : c.loadLine line = c.setConfig kv.1 kv.2 := by rw [loadLine_eq, hkv]; rfl
      have hread : c.read line = some (kv.1, c.effect kv.1 kv.2) := by rw [ConfigClass.read, hkv]; rfl
      rw [hline]
      cases setConfig_sets c kv.1 kv.2 s with
      | ignored heffect hset =>
        rw [bind_ok hset, result_cons_of_ignore (heffect ▸ hread)]
        exact ih s
      | assigned x s' heffect hset hvalues =>
        rw [bind_ok hset, result_cons_of_assign (heffect ▸ hread), ← hvalues]
        exact ih s'
      | thrown e heffect hset =>
        rw [bind_error hset, result_cons_of_fails (by simp [fails, hread, heffect])]
        rfl

/-- The exception ends the loop, and what was set stays. -/
theorem loadConfigFile_values (c : ConfigClass) (lines : List ByteString) (s : State) :
    (lastState (c.loadConfigFile (some lines) s)).values = result c.read s.values lines := by
  rw [← lines_values]
  show (lastState (EStateM.tryCatch (lines.forM c.loadLine) (fun _ => pure ()) s)).values = _
  rw [EStateM.tryCatch]
  cases lines.forM c.loadLine s with
  | ok a s' => rfl
  | error e s' => rfl

/-! ### Defaults -/

theorem init_run {item : ConfigItem} (h : (item.parser item.default).isOk = true) (s : State) :
    item.init s = .ok ()
      { s with values := Function.update s.values item.name (item.parser item.default).toOption } := by
  cases hparse : item.parser item.default with
  | ok x => simp only [ConfigItem.init, ConfigItem.assign, hparse, Except.toOption]
  | error e =>
    rw [hparse] at h
    cases h

theorem initItems_run {items : List ConfigItem} (hnodup : (items.map ConfigItem.name).Nodup)
    (hdefaults : ∀ item ∈ items, (item.parser item.default).isOk = true) (s : State) :
    ∃ s', items.forM ConfigItem.init s = .ok () s' ∧ ∀ k, s'.values k =
      (items.find? fun item => item.name = k).elim (s.values k) fun item => (item.parser item.default).toOption := by
  induction items generalizing s with
  | nil => exact ⟨s, rfl, fun _ => rfl⟩
  | cons item items ih =>
    obtain ⟨hnot, htail⟩ := List.nodup_cons.mp hnodup
    have hfirst := init_run (hdefaults item List.mem_cons_self) s
    obtain ⟨s', hrun, hvalues⟩ := ih htail (fun i hi => hdefaults i (List.mem_cons_of_mem _ hi)) _
    refine ⟨s', ?_, fun k => ?_⟩
    · have hcons : (item :: items).forM ConfigItem.init s = (item.init >>= fun _ => items.forM ConfigItem.init) s := rfl
      rw [hcons, bind_ok hfirst]
      exact hrun
    · rw [hvalues k]
      by_cases hk : item.name = k
      · subst hk
        have hnone : (items.find? fun i => i.name = item.name) = none := by
          refine List.find?_eq_none.mpr fun i hi heq => hnot ?_
          exact List.mem_map.mpr ⟨i, hi, of_decide_eq_true heq⟩
        rw [hnone, List.find?_cons_of_pos (by simp)]
        exact Function.update_self ..
      · rw [List.find?_cons_of_neg (by simpa using hk)]
        exact congrArg (Option.elim _ · _) (Function.update_of_ne (Ne.symm hk) ..)

theorem initConfig_run (c : ConfigClass) : ∃ s, c.initConfig {} = .ok () s ∧ s.values = c.default := by
  obtain ⟨s, hrun, hvalues⟩ := initItems_run c.nodup c.defaults {}
  refine ⟨s, hrun, funext fun k => ?_⟩
  rw [hvalues k, ConfigClass.default, ConfigClass.find]
  cases (LOG_LEVEL :: c.items).find? fun item => item.name = k with
  | none => rfl
  | some item => rfl

/-! ### Files -/

/-- The items after `init`. -/
def ConfigClass.values (c : ConfigClass) (file : Option (List ByteString)) : ByteString → Option Value :=
  (lastState (c.init file {})).values

theorem values_file (c : ConfigClass) (lines : List ByteString) :
    c.values (some lines) = result c.read c.default lines := by
  obtain ⟨s, hrun, hvalues⟩ := initConfig_run c
  rw [ConfigClass.values, ConfigClass.init, bind_ok hrun, loadConfigFile_values, hvalues]

theorem values_missing (c : ConfigClass) : c.values none = c.default := by
  obtain ⟨s, hrun, hvalues⟩ := initConfig_run c
  rw [ConfigClass.values, ConfigClass.init, bind_ok hrun, ← hvalues]
  rfl

end Lines

/-- The lines of a file are independent of each other if and only if those whose values `std::stoi` rejects do no
    harm. -/
theorem init_independent_iff (c : ConfigClass) (lines : List ByteString) :
    Independent c.read c.default (fun lines => c.values (some lines)) lines ↔ Harmless c.read c.default lines := by
  rw [← independent_iff]
  have hvalues : (fun lines => c.values (some lines)) = result c.read c.default := funext (values_file c)
  rw [hvalues]

/-- The port that is no number keeps the host from being set. -/
theorem not_independent_port :
    ¬∀ lines,
      Independent clientConfig.read clientConfig.default (fun lines => clientConfig.values (some lines)) lines := by
  intro h
  have hlast := (h [bytes "grpc.server.port = x", bytes "grpc.server.host = example"]).last_wins
    (bytes "grpc.server.host")
  rw [values_file] at hlast
  exact absurd hlast (by decide)

end HelloWorld.Config
