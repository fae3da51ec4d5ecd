import Mathlib.Tactic

/-! The initialisation functions of the kernel, `util/init.c`: they are called in an order
that respects the dependencies between them. A function is named by its position on the
list that `init_call_all` makes from the `.init` section. -/

namespace Weenix.Init

/-- Where the kernel stops; `fuel` is the bound on the depth of the recursion. -/
inductive Stop where
  /-- `'dep' dependency for 'func' does not exist` -/
  | missing (dep func : String)
  /-- `circular dependency between 'func' and 'f'` -/
  | circular (func f : String)
  | kassert
  | fuel
  deriving DecidableEq

/-- The fields of `struct init_function` that do not change once the list is made. -/
structure InitFunction where
  ifFunc : ℕ
  ifName : String
  ifDeps : List String
  deriving DecidableEq

/-- The fields that change, with the functions called so far, oldest first. -/
structure State where
  ifSearch : ℕ → ℤ
  ifCalled : ℕ → Bool
  initSearchCount : ℤ
  calls : List ℕ

section
variable (funcs : List InitFunction)

/-- The loop over the list that compares `if_name`. -/
def lookup (name : String) : Option ℕ := funcs.findIdx? fun f => f.ifName = name

def ifName (func : ℕ) : String := (funcs[func]?.map (·.ifName)).getD ""

def ifDeps (func : ℕ) : List String := (funcs[func]?.map (·.ifDeps)).getD []

/-- The loop of `_init_call` over the dependencies; `call` is `_init_call` itself. -/
def initDeps (call : ℕ → State → Except Stop State) (func : ℕ) : List String → State → Except Stop State
  | [], s => .ok s
  | dep :: deps, s =>
    match lookup funcs dep with
    | none => .error (.missing dep (ifName funcs func))
    | some f =>
      if s.ifSearch func = s.ifSearch f then .error (.circular (ifName funcs func) (ifName funcs f))
      else if s.ifCalled f then initDeps call func deps s
      else do
        let s ← call f { s with ifSearch := Function.update s.ifSearch f (s.ifSearch func) }
        initDeps call func deps s

/-- `_init_call`; the first argument bounds the depth of the recursion. -/
def initCall : ℕ → ℕ → State → Except Stop State
  | 0, _, _ => .error .fuel
  | n + 1, func, s => do
    let s ← initDeps funcs (initCall n) func (ifDeps funcs func) s
    if s.ifCalled func then .error .kassert
    else return { s with
      calls := s.calls ++ [func]
      ifCalled := Function.update s.ifCalled func true }

/-- The loop of `init_call_all` that calls the functions. -/
def initLoop (fuel : ℕ) : List ℕ → State → Except Stop State
  | [], s => .ok s
  | func :: l, s =>
    if s.ifCalled func then initLoop fuel l s
    else do
      let count := s.initSearchCount + 1
      let s ← initCall funcs fuel func { s with
        initSearchCount := count
        ifSearch := Function.update s.ifSearch func count }
      initLoop fuel l s

end

/-- `init_call_all` behind the loop that reads the section. -/
def initCallAll (fuel : ℕ) (funcs : List InitFunction) : Except Stop State :=
  initLoop funcs fuel (List.range funcs.length) ⟨fun _ => 0, fun _ => false, 0, []⟩

end Weenix.Init
