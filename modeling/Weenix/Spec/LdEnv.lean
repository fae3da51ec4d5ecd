import Mathlib.Tactic

/-! The environment of the run-time linker: `_ldgetenv` and `_ldenv_init` of `ldstart.c`. Texts are
without their terminators, and a pointer is the number of an entry and an offset into it. -/

namespace Weenix.Ld

/-- The inner loop of `_ldgetenv`: what is left of the entry and of the name where they differ. If
both end at once the loop reads on behind them, which is `none`. -/
def skipCommon : List Char → List Char → Option (List Char × List Char)
  | [], [] => none
  | [], b :: var => some ([], b :: var)
  | a :: p, [] => some (a :: p, [])
  | a :: p, b :: var => if a = b then skipCommon p var else some (a :: p, b :: var)

/-- The outer loop, from the entry `i` on. -/
def getenvFrom : ℕ → List (List Char) → List Char → Option (Option (ℕ × ℕ))
  | _, [], _ => some none
  | i, e :: env, var => do
    -- `var` is not set back for the next entry
    let (p, var) ← skipCommon e var
    -- `return p++` returns the old `p`
    if p.head? = some '=' ∧ var = [] then some (some (i, e.length - p.length))
    else getenvFrom (i + 1) env var

def ldgetenv (env : List (List Char)) (var : List Char) : Option (Option (ℕ × ℕ)) := getenvFrom 0 env var

/-- `ldenv_t` -/
structure LdEnv where
  ldBindNow : Bool
  ldDebug : Bool
  ldPreload : Option (ℕ × ℕ)
  ldLibraryPath : Option (ℕ × ℕ)

/-- `_ldenv_init`, with the lookup that it calls. -/
def ldenvInit (getenv : List Char → Option (Option (ℕ × ℕ))) : Option LdEnv := do
  let bindNow ← getenv "LD_BIND_NOW".toList
  let debug ← getenv "LD_DEBUG".toList
  let preload ← getenv "LD_PRELOAD".toList
  let libraryPath ← getenv "LD_LIBRARY_PATH".toList
  return ⟨bindNow.isSome, debug.isSome, preload, libraryPath⟩

end Weenix.Ld
