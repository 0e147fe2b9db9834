import WordLang.Declaration.Scope
import WordLang.Declaration.Table

/-! # Checking a program before it runs

    Three passes look at limits, declarations and names.  Each goes through
    the whole program whatever the others find, and a program may run only
    if none of them finds a fault. -/

namespace WordLang

/-- What the three passes found. -/
structure Passes where
  limits       : List DeclError
  declared     : Declarations
  declarations : List DeclError
  names        : List DeclError

namespace Passes

/-- All faults, in the order of the passes. -/
def errors (r : Passes) : List DeclError := r.limits ++ r.declarations ++ r.names

end Passes

namespace Program

/-- The three passes over a program. -/
def passes (p : Program) : Passes where
  limits := p.limitErrors
  declared := p.declarations.1
  declarations := p.declarations.2
  names := p.nameErrors

/-- What a program declares, or everything that is wrong with it. -/
def check (p : Program) : Except (List DeclError) Declarations :=
  let r := p.passes
  if r.errors.isEmpty then .ok r.declared else .error r.errors

end Program

end WordLang
