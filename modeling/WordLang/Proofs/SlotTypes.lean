import WordLang.Proofs.Assigned
import WordLang.Proofs.Cells

/-! # Slots keep their types in every run

    From any state at all, also from one that holds numbers too large for
    their widths, nothing that runs gives a slot another type.  Only an
    assignment writes to slots.  It looks at the type of its target before
    the right-hand side is evaluated and finds the target again afterwards;
    in between the frames stay and the types of slots do, so the value that
    it stores has the type of what it replaces.

    What an evaluation leaves behind therefore has a value of the same type
    under every name (`AllParts.ty_read?`). -/

namespace WordLang

open Exec

/-! ## Section 1: Computations that keep the types of slots -/

/-- The slots of the second state have the types of the first. -/
def TypesKept (m m' : Machine) : Prop := Store.SameTypes m.store m'.store

instance : Composes TypesKept := ⟨fun m => .refl m.store, Store.SameTypes.trans⟩

theorem typesKept_of_store_eq {m m' : Machine} (h : m'.store = m.store) : TypesKept m m' := by
  rw [TypesKept, h]
  exact .refl _

theorem typesKept_within {α : Type} {enter leave : Machine → Machine} {x : Exec α}
    (henter : ∀ m, (enter m).store = m.store) (hleave : ∀ m, (leave m).store = m.store)
    (h : Moves TypesKept x) : Moves TypesKept (within enter leave x) := by
  apply h.within
  intro m m' hm
  rw [TypesKept, henter] at hm
  rw [TypesKept, hleave]
  exact hm

theorem typesKept_emit (e : Machine → Event) : Moves TypesKept (modify fun m => m.emit (e m)) :=
  .modify (fun _ => typesKept_of_store_eq rfl)

theorem typesKept_callWith {env : Env} {body : Exec Flow} (hbody : Moves TypesKept body)
    (pos : Position) (f : Function) (args : List Expr) (values : List Value) :
    Moves TypesKept (callWith env pos f args values body) := by
  refine .bind (moves_prepareCall env pos f args values) (fun params => .bind ?_ (fun flow m => ?_))
  · exact typesKept_within (fun _ => rfl) (fun _ => rfl)
      (.bind (typesKept_emit _) (fun _ => hbody))
  · exact ensures_finishCall pos f flow (fun _ _ => Composes.refl m) (fun _ => trivial)
      (fun _ _ _ => typesKept_of_store_eq rfl)

/-- All that is not an assignment keeps the types of slots if its parts do. -/
theorem composite_typesKept (env : Env) : Composite env (fun _ {_} x => Moves TypesKept x) where
  pure _ := .pure
  fail _ _ _ := .fail
  outOfFuel := .outOfFuel
  reads _ _ := .reads
  bind := .bind
  declare _ _ := .modify (fun m => typesKept_of_store_eq (m.store_mapScopes _))
  inScope _ _ h := typesKept_within (fun m => m.store_mapScopes _) (fun m => m.store_mapScopes _) h
  enterStatement _ := typesKept_emit _
  runPanic pos := fun _ =>
    ensures_runPanic pos (fun _ => trivial) (fun _ _ _ => typesKept_of_store_eq rfl)
  callWith {_ _ f} pos args values {_} _ hbody := typesKept_callWith hbody pos f args values

/-! ## Section 2: Assignments -/

/-- What is stored in a place that accepts it has the type of what it replaces. -/
theorem typesKept_store {m : Machine} (pos : Position) (name : String) (index : Option Nat)
    {v : Value} (haccepts : m.Accepts name index v.ty) :
    Ensures (fun _ _ => True) (fun _ m' => TypesKept m m') (fun _ m' => TypesKept m m')
      (store pos name index v) m := by
  have hupdate : ∀ f : Value → Value, (∀ old, m.read? name = some old → (f old).ty = old.ty) →
      Ensures (fun _ _ => True) (fun _ m' => TypesKept m m') (fun _ m' => TypesKept m m')
        (update pos name f) m := by
    intro f hf
    refine ensures_update pos name f (fun _ _ => .refl _) (fun c hc => ⟨trivial, ?_⟩)
    apply Machine.sameTypes_modifyCell
    intro old hold
    exact hf old (Machine.cellValue?_of_cell hc ▸ hold)
  unfold store
  split
  · apply hupdate
    intro old hold
    rw [Machine.Accepts, hold] at haccepts
    exact (Option.some.inj haccepts).symm
  · exact hupdate _ (fun old _ => old.ty_setElement _ _)
  -- an array is no element
  · obtain ⟨element, len, -, hword⟩ := haccepts
    cases hword

namespace AllParts

variable {env : Env} {fuel : Nat} (ih : AllParts env (fun _ {_} x => Moves TypesKept x) fuel)

include ih

/-- What an evaluation leaves behind has a value of the same type under every name. -/
theorem ty_read? {e : Expr} {hint : Option Width} {m m' : Machine}
    (h : (WordLang.eval env fuel e hint m).outcome.machine? = some m') (name : String) :
    (m'.read? name).map Value.ty = (m.read? name).map Value.ty :=
  Machine.ty_read?_of_sameTypes ((ih.eval (T := fun _ => True) e hint).ends h)
    ((kept_eval env fuel e hint).ends h).frames_eq name

/-- When it comes to the store, the place accepts what there is to store. -/
theorem accepts_of_assigned {pos : Position} {op : AssignOp} {place : Place} {value : Expr}
    {index : Option Nat} {v : Value} {m m₂ : Machine}
    (h : (assigned env fuel pos op place value m).outcome = .done (index, v) m₂) :
    m₂.Accepts place.name index v.ty := by
  obtain ⟨m₁, old, rhs, hvalued, hcombines⟩ := valued_of_assigned h
  rw [hcombines.ty_eq]
  apply (Machine.accepts_of_part? hvalued.found).congr
  exact ih.ty_read? (congrArg Outcome.machine? hvalued.valued) place.name

theorem typesKept_runAssign (pos : Position) (op : AssignOp) (place : Place) (value : Expr) :
    Moves TypesKept (WordLang.runAssign env (fuel + 1) pos op place value) := by
  have hassigned : Moves TypesKept (assigned env fuel pos op place value) :=
    moves_assigned (fun e hint => ih.eval (T := fun _ => True) e hint)
  rw [runAssign_eq]
  intro m
  refine .bind ⟨fun _ _ _ => trivial, ?_⟩
  have hends := (hassigned m).outcome
  cases hx : (assigned env fuel pos op place value m).outcome with
  | outOfFuel => trivial
  | fault e m₂ =>
    rw [hx] at hends
    exact hends
  | done found m₂ =>
    rw [hx] at hends
    have hstore := typesKept_store pos place.name found.1 (ih.accepts_of_assigned hx)
    refine .bind (hstore.mono (fun _ _ _ => trivial) (fun _ m' hm' => .pure ?_)
      (fun _ m' hm' => ?_))
    · exact Composes.trans (R := TypesKept) hends hm'
    · exact Composes.trans (R := TypesKept) hends hm'

end AllParts

/-! ## Section 3: All parts of the semantics -/

/-- Whatever the fuel, every part of the semantics keeps the types of slots. -/
theorem keepsTypes (env : Env) (fuel : Nat) :
    AllParts env (fun _ {_} x => Moves TypesKept x) fuel := by
  apply (composite_typesKept env).parts
  intro fuel ih T pos op place value _
  exact ih.typesKept_runAssign pos op place value

end WordLang
