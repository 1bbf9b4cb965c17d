/-
The loop over `range(…)`: what Python makes of it, and what C makes of the loop that
`ast_cgen_stmt` emits for it.

The emitted loop is `for (int64_t v = start; v < bound; v++)`. It has a variable of its own, which
hides the one outside and is gone behind the loop; it goes on from what the body leaves in `v`,
always by 1; and it evaluates its bound before every pass. Python fixes the values at entry.

The body is one and the same on both sides: what is compared is the loop around it.
-/
import SysInC.PythontInt

set_option autoImplicit false

namespace SysInC.Pythont

/-! ## Bodies -/

/-- The variables that have a value. -/
abbrev Vars := String → Option ℤ

/-- How a pass ends: behind its last statement or at a `continue`, at a `break`, or at a `return`.
-/
inductive Exit
  | next
  | brk
  | ret
  deriving DecidableEq

/-- What a pass of the body does with the variables; `none` when it does not end. -/
abbrev Body := Vars → Option (Exit × Vars)

/-- `v = value` -/
def Vars.set (env : Vars) (v : String) (value : ℤ) : Vars := Function.update env v (some value)

/-! ## Python -/

instance (op : String) (a : ℤ) : Decidable (evaluates_right op a) :=
  inferInstanceAs (Decidable ((op = "and" → a ≠ 0) ∧ (op = "or" → a = 0)))

/-- All names that are evaluated have a value. -/
def names_have_values (env : Vars) : ast_expr → Bool
  | .identifier text => (env text).isSome
  | .unary _ operand => names_have_values env operand
  | .binary op left right =>
    names_have_values env left &&
      (!decide (evaluates_right op (py_value (fun name => (env name).getD 0) left)) ||
        names_have_values env right)
  | _ => true

/-- The value of an argument, where no name in it is an error. -/
def py_arg (env : Vars) (e : ast_expr) : Option ℤ :=
  if names_have_values env e then py_eval (fun name => (env name).getD 0) e else none

/-- The values of the arguments, as `start`, `stop` and `step`. A step of 0 is an error. -/
def py_range (env : Vars) : List ast_expr → Option (ℤ × ℤ × ℤ)
  | [stop] => (py_arg env stop).map fun b => (0, b, 1)
  | [start, stop] =>
    (py_arg env start).bind fun a => (py_arg env stop).map fun b => (a, b, 1)
  | [start, stop, step] =>
    (py_arg env start).bind fun a => (py_arg env stop).bind fun b =>
      (py_arg env step).bind fun s => if s = 0 then none else some (a, b, s)
  | _ => none

/-- How many of `start + k * step` are in front of `stop`. -/
def range_length (start stop step : ℤ) : ℕ :=
  if 0 < step then ((stop - start + step - 1) / step).toNat
  else ((start - stop - step - 1) / -step).toNat

def range_values (start stop step : ℤ) : List ℤ :=
  (List.range (range_length start stop step)).map fun k : ℕ => start + (k : ℤ) * step

def py_values (env : Vars) (args : List ast_expr) : Option (List ℤ) :=
  (py_range env args).map fun r => range_values r.1 r.2.1 r.2.2

theorem lt_range_length_iff {start stop step : ℤ} (nonzero : step ≠ 0) (k : ℕ) :
    k < range_length start stop step ↔
      (0 < step ∧ start + k * step < stop) ∨ (step < 0 ∧ stop < start + k * step) := by
  have ceil : ∀ gap pace : ℤ, 0 < pace →
      (k < ((gap + pace - 1) / pace).toNat ↔ k * pace < gap) := by
    intro gap pace hpace
    rw [Int.lt_toNat, ← Int.add_one_le_iff, Int.le_ediv_iff_mul_le hpace, add_mul, one_mul]
    omega
  unfold range_length
  by_cases up : 0 < step
  · rw [if_pos up, ceil _ _ up]
    omega
  · have down : step < 0 := lt_of_le_of_ne (not_lt.mp up) nonzero
    have flip : start - stop - step - 1 = start - stop + -step - 1 := by ring
    rw [if_neg up, flip, ceil _ _ (neg_pos.mpr down), mul_neg]
    omega

/-- The values of a range, as Python defines them. -/
theorem mem_range_values {start stop step : ℤ} (nonzero : step ≠ 0) (value : ℤ) :
    value ∈ range_values start stop step ↔ ∃ k : ℕ, value = start + k * step ∧
      ((0 < step ∧ value < stop) ∨ (step < 0 ∧ stop < value)) := by
  unfold range_values
  rw [List.mem_map]
  refine exists_congr fun k => ?_
  rw [List.mem_range, lt_range_length_iff nonzero]
  constructor
  · rintro ⟨inside, rfl⟩
    exact ⟨rfl, inside⟩
  · rintro ⟨rfl, inside⟩
    exact ⟨inside, rfl⟩

/-- What a loop does: the variables as every pass finds them, and how the last one ends. -/
structure Run where
  passes : List Vars
  exit : Option (Exit × Vars)

def Run.behind (env : Vars) (r : Run) : Run := ⟨env :: r.passes, r.exit⟩

/-- The loop over the values. -/
def py_loop (v : String) (body : Body) : List ℤ → Vars → Run
  | [], env => ⟨[], some (.next, env)⟩
  | value :: values, env =>
    match body (env.set v value) with
    | some (.next, env') => (py_loop v body values env').behind (env.set v value)
    | stop => ⟨[env.set v value], stop⟩

/-! ## C -/

def range_init (args : List ast_expr) : String :=
  if args.length = 1 then "0" else range_arg_text args 0

def range_test (v : String) (args : List ast_expr) : String :=
  v ++ " < " ++ (if args.length = 1 then range_arg_text args 0 else range_arg_text args 1)

variable (funs : String → List ℤ → Option ℤ)

/-- `v < bound` -/
def c_test (v : String) (args : List ast_expr) (env : Vars) : Option Bool :=
  (c_value funs env (range_test v args)).map fun value => value.2 ≠ 0

/-- `v++` -/
def c_next (v : String) (env : Vars) : Option Vars :=
  (env v).bind fun value => (int64 (value + 1)).map (env.set v)

/-- The first value. The new `v` has none while it is found. -/
def c_first (v : String) (args : List ast_expr) (env : Vars) : Option ℤ :=
  (c_value funs (Function.update env v none) (range_init args)).bind fun value => int64 value.2

/-- The loop from its head on. -/
inductive CLoop (v : String) (args : List ast_expr) (body : Body) : Vars → Run → Prop
  | done {env : Vars} (test : c_test funs v args env = some false) :
      CLoop v args body env ⟨[], some (.next, env)⟩
  | stops {env : Vars} (test : c_test funs v args env = some true)
      (last : ∀ env', body env ≠ some (.next, env')) : CLoop v args body env ⟨[env], body env⟩
  | pass {env env' head : Vars} {r : Run} (test : c_test funs v args env = some true)
      (ends : body env = some (.next, env')) (next : c_next v env' = some head)
      (loop : CLoop v args body head r) : CLoop v args body env (r.behind env)

/-- Behind the loop the variable `v` is the one outside again. A `return` does not come there. -/
def leaves (v : String) (env : Vars) : Option (Exit × Vars) → Option (Exit × Vars)
  | some (.ret, env') => some (.ret, env')
  | some (exit, env') => some (exit, Function.update env' v (env v))
  | none => none

/-- The emitted loop makes the passes that Python makes, and leaves the variables as Python does. -/
def LoopsAlike (v : String) (args : List ast_expr) (body : Body) (env : Vars) : Prop :=
  ∃ values, py_values env args = some values ∧
    ∃ first, c_first funs v args env = some first ∧
      ∃ r, CLoop funs v args body (env.set v first) r ∧ r.passes = (py_loop v body values env).passes ∧
        leaves v env r.exit = (py_loop v body values env).exit

/-! ## When they do the same -/

/-- The values of the range are those that counting gives. With `at_head` in `v`, Python is at the
next value and the bound is behind it; a pass leaves one less than the next value in `v`; behind the
last value the bound is reached; and Python leaves the loop with the `v` that was there before it
(`outer`). -/
def Counts (v : String) (args : List ast_expr) (body : Body) (outer : Option ℤ) :
    List ℤ → Vars → ℤ → Prop
  | [], py, at_head => c_test funs v args (py.set v at_head) = some false ∧ py v = outer
  | value :: values, py, at_head =>
    at_head = value ∧ c_test funs v args (py.set v value) = some true ∧
      match body (py.set v value) with
      | some (.next, py') => ∃ left, (py' v).bind (fun x => int64 (x + 1)) = some left ∧
          Counts v args body outer values py' left
      | some (.brk, py') => py' v = outer
      | _ => True

variable {funs} {v : String} {args : List ast_expr} {body : Body}

theorem CLoop.of_nil {env : Vars} {r : Run} (h : CLoop funs v args body env r)
    (none : r.passes = []) : c_test funs v args env = some false ∧ r.exit = some (.next, env) := by
  cases h with
  | done test => exact ⟨test, rfl⟩
  | stops => exact absurd none (List.cons_ne_nil _ _)
  | pass => exact absurd none (List.cons_ne_nil _ _)

theorem CLoop.of_cons {env first : Vars} {rest : List Vars} {r : Run}
    (h : CLoop funs v args body env r) (passes : r.passes = first :: rest) :
    first = env ∧ c_test funs v args env = some true ∧
      ((rest = [] ∧ r.exit = body env ∧ ∀ env', body env ≠ some (.next, env')) ∨
        ∃ env' head r', body env = some (.next, env') ∧ c_next v env' = some head ∧
          CLoop funs v args body head r' ∧ r'.passes = rest ∧ r'.exit = r.exit) := by
  cases h with
  | done => exact absurd passes.symm (List.cons_ne_nil _ _)
  | stops test last =>
    obtain ⟨rfl, rfl⟩ := List.cons.inj passes
    exact ⟨rfl, test, .inl ⟨rfl, rfl, last⟩⟩
  | pass test ends next loop =>
    obtain ⟨rfl, rfl⟩ := List.cons.inj passes
    exact ⟨rfl, test, .inr ⟨_, _, _, ends, next, loop, rfl, rfl⟩⟩

theorem set_self (py : Vars) (v : String) (value : ℤ) : py.set v value v = some value :=
  Function.update_self _ _ _

theorem set_inj {py : Vars} {value value' : ℤ} (h : py.set v value = py.set v value') :
    value = value' := by
  have here := congrFun h v
  rw [set_self, set_self] at here
  exact Option.some.inj here

theorem c_next_eq_some {env head : Vars} :
    c_next v env = some head ↔
      ∃ left, (env v).bind (fun x => int64 (x + 1)) = some left ∧ head = env.set v left := by
  unfold c_next
  cases env v with
  | none => simp
  | some x => simp [Option.map_eq_some_iff, eq_comm]

/-- The last pass, which leaves the loop or does not end. -/
theorem stops_iff (outer py : Vars) {value at_head : ℤ} {stop : Option (Exit × Vars)}
    (ends : body (py.set v value) = stop) (last : ∀ env', stop ≠ some (.next, env')) :
    (∃ r, CLoop funs v args body (py.set v at_head) r ∧ r.passes = [py.set v value] ∧
        leaves v outer r.exit = stop) ↔
      at_head = value ∧ c_test funs v args (py.set v value) = some true ∧
        leaves v outer stop = stop := by
  constructor
  · rintro ⟨r, loop, passes, exit⟩
    obtain ⟨here, test, ⟨-, stays, -⟩ | ⟨env', _, _, goes_on, -⟩⟩ := loop.of_cons passes
    · obtain rfl := set_inj here
      rw [stays, ends] at exit
      exact ⟨rfl, test, exit⟩
    · rw [← here, ends] at goes_on
      exact absurd goes_on (last env')
  · rintro ⟨rfl, test, exit⟩
    refine ⟨_, .stops test fun env' h => last env' (ends.symm.trans h), rfl, ?_⟩
    rw [ends]
    exact exit

/-- A pass behind which Python takes the next value. -/
theorem pass_iff (outer py : Vars) {value at_head : ℤ} {py' : Vars}
    (ends : body (py.set v value) = some (.next, py')) (rest : Run) :
    (∃ r, CLoop funs v args body (py.set v at_head) r ∧
        r.passes = py.set v value :: rest.passes ∧ leaves v outer r.exit = rest.exit) ↔
      at_head = value ∧ c_test funs v args (py.set v value) = some true ∧
        ∃ left, (py' v).bind (fun x => int64 (x + 1)) = some left ∧
          ∃ r, CLoop funs v args body (py'.set v left) r ∧ r.passes = rest.passes ∧
            leaves v outer r.exit = rest.exit := by
  constructor
  · rintro ⟨r, loop, passes, exit⟩
    obtain ⟨here, test, ⟨-, -, stuck⟩ | ⟨env', head, r', goes_on, next, loop', passes', exit'⟩⟩ :=
      loop.of_cons passes
    · rw [← here] at stuck
      exact absurd ends (stuck py')
    · obtain rfl := set_inj here
      obtain rfl := (Prod.mk.inj (Option.some.inj (ends.symm.trans goes_on))).2
      obtain ⟨left, counted, rfl⟩ := c_next_eq_some.mp next
      exact ⟨rfl, test, left, counted, r', loop', passes', exit' ▸ exit⟩
  · rintro ⟨rfl, test, left, counted, r, loop, passes, exit⟩
    refine ⟨_, .pass test ends (c_next_eq_some.mpr ⟨left, counted, rfl⟩) loop, ?_, exit⟩
    rw [← passes]
    rfl

/-- From a head on. -/
theorem loop_iff (outer : Vars) (values : List ℤ) (py : Vars) (at_head : ℤ) :
    (∃ r, CLoop funs v args body (py.set v at_head) r ∧
        r.passes = (py_loop v body values py).passes ∧
          leaves v outer r.exit = (py_loop v body values py).exit) ↔
      Counts funs v args body (outer v) values py at_head := by
  induction values generalizing py at_head with
  | nil =>
    have passed : leaves v outer (some (.next, py.set v at_head)) = some (.next, py) ↔
        py v = outer v := by
      simp [leaves, Vars.set, eq_comm]
    rw [Counts, ← passed]
    constructor
    · rintro ⟨r, loop, passes, exit⟩
      obtain ⟨test, stays⟩ := loop.of_nil passes
      rw [stays] at exit
      exact ⟨test, exit⟩
    · rintro ⟨test, exit⟩
      exact ⟨_, .done test, rfl, exit⟩
  | cons value values ih =>
    rw [Counts, py_loop]
    rcases ends : body (py.set v value) with _ | ⟨_ | _ | _, py'⟩
    · refine (stops_iff outer py ends fun _ => (Option.some_ne_none _).symm).trans ?_
      simp [leaves]
    · refine (pass_iff outer py ends (py_loop v body values py')).trans ?_
      refine and_congr_right fun _ => and_congr_right fun _ => exists_congr fun left => ?_
      exact and_congr_right fun _ => ih py' left
    · refine (stops_iff outer py ends fun _ => by simp).trans ?_
      simp [leaves, eq_comm]
    · refine (stops_iff outer py ends fun _ => by simp).trans ?_
      simp [leaves]

/-! ## The loop -/

/-- **Loops over ranges.** The emitted loop does what Python's does exactly when the range is what
counting gives, from its first value on. -/
theorem range_loop_iff (funs : String → List ℤ → Option ℤ) (v : String) {args : List ast_expr}
    (body : Body) {env : Vars} {values : List ℤ} (range : py_values env args = some values) :
    LoopsAlike funs v args body env ↔
      ∃ first, c_first funs v args env = some first ∧
        Counts funs v args body (env v) values env first := by
  constructor
  · rintro ⟨values', range', first, init, alike⟩
    obtain rfl := Option.some.inj (range'.symm.trans range)
    exact ⟨first, init, (loop_iff env _ _ _).mp alike⟩
  · rintro ⟨first, init, counts⟩
    exact ⟨values, range, first, init, (loop_iff env _ _ _).mpr counts⟩

/-- `for i in range(2): pass`, where `i` is 1 before. -/
theorem range_loop_two :
    LoopsAlike (fun _ _ => none) "i" [.number "2"] (fun env => some (.next, env))
      (fun _ => some 1) := by
  have range : py_values (fun _ => some 1) [.number "2"] = some [0, 1] := by decide
  refine (range_loop_iff (fun _ _ => none) "i" (fun env => some (.next, env)) range).mpr ?_
  refine ⟨0, by decide, rfl, by decide, 1, by decide, rfl, ?_⟩
  exact ⟨by decide, 2, by decide, by decide, rfl⟩

/-- `for i in range(0, 6, 2): pass` makes its second pass with `i` = 1. -/
theorem step_passed_over :
    ¬ ∀ (funs : String → List ℤ → Option ℤ) (v : String) (args : List ast_expr) (body : Body)
      (env : Vars) (values : List ℤ), py_values env args = some values →
        LoopsAlike funs v args body env := by
  intro alike
  have range : py_values (fun _ => none) [.number "0", .number "6", .number "2"] =
      some [0, 2, 4] := by
    decide
  obtain ⟨values, range', first, init, run⟩ := alike (fun _ _ => none) "i" _
    (fun env => some (.next, env)) _ _ range
  obtain rfl := Option.some.inj (range'.symm.trans range)
  obtain ⟨-, -, left, counted, second, -⟩ := (loop_iff _ _ _ _).mp run
  rw [set_self] at counted
  exact absurd (counted.trans (congrArg some second)) (by decide)

end SysInC.Pythont
