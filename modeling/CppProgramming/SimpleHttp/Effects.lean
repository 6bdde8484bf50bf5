import CppProgramming.SimpleHttp.Connection

/-! # What an action changes

One lemma for each part of the shared state, in the form in which the invariants look at it: the part after
an action, by cases of the action. -/

namespace SimpleHttp

variable {R : RequestHandler}

theorem Shared.modify_conn (s : Shared R) (c c' : ConnId) (g : Connection R → Connection R) :
    (s.modify c' g).conn c = if c' = c then g (s.conn c) else s.conn c := by
  by_cases h : c' = c
  · subst h
    simp [Shared.modify]
  · simp [Shared.modify, h, Function.update_of_ne (Ne.symm h)]

namespace Act
variable (a : Act R) (s : Shared R) (d : Side) (c : ConnId)

@[simp] theorem apply_protect : (a.apply s).protect d =
    match a with
    | .lock d' => if d' = d then true else s.protect d
    | .unlock d' | .enlist d' _ | .delist d' _ => if d' = d then false else s.protect d
    | _ => s.protect d := by
  cases a <;> simp only [apply, Shared.modify, Function.update_apply, eq_comm (a := d)]

@[simp] theorem apply_queue : (a.apply s).queue d =
    match a with
    | .inQueue d' c => if d' = d then s.queue d ++ [c] else s.queue d
    | .deQueue d' _ => if d' = d then (s.queue d).tail else s.queue d
    | _ => s.queue d := by
  cases a with
  | inQueue d' c => by_cases h : d' = d <;> simp_all [apply, eq_comm]
  | deQueue d' c => by_cases h : d' = d <;> simp_all [apply, eq_comm]
  | _ => rfl

@[simp] theorem apply_cached : (a.apply s).cached c =
    match a with
    | .addCache c' content => if c' = c then s.cached c ++ content else s.cached c
    | .getCache c' => if c' = c then [] else s.cached c
    | _ => s.cached c := by
  cases a with
  | addCache c' content => by_cases h : c' = c <;> simp_all [apply, Shared.cached, eq_comm]
  | getCache c' =>
    by_cases h : c' = c
    · subst h
      cases hc : s.writeCache c' <;> simp [apply, Shared.cached, hc]
    · simp_all [apply, Shared.cached, eq_comm]
  | _ => rfl

@[simp] theorem apply_connectionMap : (a.apply s).connectionMap c =
    match a with
    | .release c' => if c' = c then false else s.connectionMap c
    | .register => if s.nextConnId + 1 = c then true else s.connectionMap c
    | _ => s.connectionMap c := by
  cases a <;> simp only [apply, Shared.modify, Function.update_apply, eq_comm (a := c)]

@[simp] theorem apply_nextConnId : (a.apply s).nextConnId =
    match a with
    | .register => s.nextConnId + 1
    | _ => s.nextConnId := by
  cases a <;> rfl

@[simp] theorem apply_added : (a.apply s).added c =
    match a with
    | .addCache c' content => if c' = c then s.added c ++ content else s.added c
    | _ => s.added c := by
  cases a with
  | addCache c' content => by_cases h : c' = c <;> simp_all [apply, eq_comm]
  | _ => rfl

@[simp] theorem apply_accepted : (a.apply s).accepted c =
    match a with
    | .writeSocket c' bytes => if c' = c then s.accepted c ++ bytes else s.accepted c
    | _ => s.accepted c := by
  cases a with
  | writeSocket c' bytes => by_cases h : c' = c <;> simp_all [apply, eq_comm]
  | _ => rfl

@[simp] theorem apply_closes : (a.apply s).closes c =
    match a with
    | .close c' => if c' = c then s.closes c + 1 else s.closes c
    | _ => s.closes c := by
  cases a with
  | close c' => by_cases h : c' = c <;> simp_all [apply, eq_comm]
  | _ => rfl

/-! ### Connections -/

@[simp] theorem apply_busy : ((a.apply s).conn c).busy d =
    match a with
    | .enlist d' c' => if d' = d ∧ c' = c then true else (s.conn c).busy d
    | .delist d' c' => if d' = d ∧ c' = c then false else (s.conn c).busy d
    | _ => (s.conn c).busy d := by
  cases a <;> simp only [apply, Shared.modify_conn] <;> split_ifs <;> simp_all [eq_comm]

@[simp] theorem apply_happened : ((a.apply s).conn c).happened d =
    match a with
    | .happen d' c' => if d' = d ∧ c' = c then (s.conn c).happened d + 1 else (s.conn c).happened d
    | .take d' c' => if d' = d ∧ c' = c then (s.conn c).happened d - 1 else (s.conn c).happened d
    | _ => (s.conn c).happened d := by
  cases a <;> simp only [apply, Shared.modify_conn] <;> split_ifs <;> simp_all [eq_comm]

@[simp] theorem apply_errorCode : ((a.apply s).conn c).errorCode =
    match a with
    | .setError c' e => if c' = c then e else (s.conn c).errorCode
    | _ => (s.conn c).errorCode := by
  cases a <;> simp only [apply, Shared.modify_conn] <;> split_ifs <;> rfl

@[simp] theorem apply_isClosed : ((a.apply s).conn c).isClosed =
    match a with
    | .setClosed c' => if c' = c then true else (s.conn c).isClosed
    | _ => (s.conn c).isClosed := by
  cases a <;> simp only [apply, Shared.modify_conn] <;> split_ifs <;> rfl

@[simp] theorem apply_handler : ((a.apply s).conn c).handler =
    match a with
    | .setHandler c' h => if c' = c then h else (s.conn c).handler
    | _ => (s.conn c).handler := by
  cases a <;> simp only [apply, Shared.modify_conn] <;> split_ifs <;> rfl

@[simp] theorem apply_response : ((a.apply s).conn c).response =
    match a with
    | .setResponse c' content => if c' = c then (s.conn c).response ++ content else (s.conn c).response
    | .store c' rest => if c' = c then rest else (s.conn c).response
    | _ => (s.conn c).response := by
  cases a <;> simp only [apply, Shared.modify_conn] <;> split_ifs <;> rfl

end Act
end SimpleHttp
