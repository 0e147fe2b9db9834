import WordLang.Run

/-! # What computations guarantee

    `Ensures S Q E x m` says what is known of the computation `x` on the
    machine `m`: every single change satisfies `S`, a result satisfies `Q`
    and a failure `E`.  A computation that runs out of fuel promises nothing
    about an end it does not reach, but its changes satisfy `S` as well.

    There is one rule for each way to build a computation.  Invariants of
    the semantics are proved with these rules, and no proof needs to look
    into a computation in any other way. -/

namespace WordLang

namespace Exec

variable {α β : Type}

/-! ## Section 1: The guarantee -/

/-- What holds of how a computation ends. -/
def Ends (Q : α → Machine → Prop) (E : RuntimeError → Machine → Prop) : Outcome α → Prop
  | .done a m => Q a m
  | .fault e m => E e m
  | .outOfFuel => True

/-- What a computation guarantees from a machine on. -/
structure Ensures (S : Machine → Machine → Prop) (Q : α → Machine → Prop)
    (E : RuntimeError → Machine → Prop) (x : Exec α) (m : Machine) : Prop where
  changes : ∀ p q, (x m).changes p q → S p q
  outcome : Ends Q E (x m).outcome

namespace Ensures

variable {S S' : Machine → Machine → Prop} {Q Q' : α → Machine → Prop}
variable {E E' : RuntimeError → Machine → Prop} {x : Exec α} {m : Machine}

theorem done {a : α} {m' : Machine} (h : Ensures S Q E x m)
    (hx : (x m).outcome = .done a m') : Q a m' := by
  have ho := h.outcome
  rw [hx] at ho
  exact ho

theorem fault {e : RuntimeError} {m' : Machine} (h : Ensures S Q E x m)
    (hx : (x m).outcome = .fault e m') : E e m' := by
  have ho := h.outcome
  rw [hx] at ho
  exact ho

/-- A guarantee may be weakened. -/
theorem mono (h : Ensures S Q E x m) (hS : ∀ p q, S p q → S' p q)
    (hQ : ∀ a m', Q a m' → Q' a m') (hE : ∀ e m', E e m' → E' e m') :
    Ensures S' Q' E' x m := by
  refine ⟨fun p q hpq => hS p q (h.changes p q hpq), ?_⟩
  have ho := h.outcome
  cases hx : (x m).outcome with
  | done a m' => rw [hx] at ho; exact hQ a m' ho
  | fault e m' => rw [hx] at ho; exact hE e m' ho
  | outOfFuel => trivial

/-- Two guarantees about one computation hold together. -/
theorem and (h : Ensures S Q E x m) (h' : Ensures S' Q' E' x m) :
    Ensures (fun p q => S p q ∧ S' p q) (fun a m' => Q a m' ∧ Q' a m')
      (fun e m' => E e m' ∧ E' e m') x m := by
  refine ⟨fun p q hpq => ⟨h.changes p q hpq, h'.changes p q hpq⟩, ?_⟩
  have ho := h.outcome
  have ho' := h'.outcome
  cases hx : (x m).outcome with
  | done a m' => rw [hx] at ho ho'; exact ⟨ho, ho'⟩
  | fault e m' => rw [hx] at ho ho'; exact ⟨ho, ho'⟩
  | outOfFuel => trivial

/-! ## Section 2: One rule for each way to build a computation -/

theorem pure {a : α} (h : Q a m) : Ensures S Q E (Pure.pure a : Exec α) m :=
  ⟨fun _ _ hpq => hpq.elim, h⟩

theorem fail {pos : Position} {cause : RuntimeCause} (h : E ⟨pos, cause⟩ m) :
    Ensures S Q E (Exec.fail pos cause : Exec α) m :=
  ⟨fun _ _ hpq => hpq.elim, h⟩

theorem outOfFuel : Ensures S Q E (Exec.outOfFuel : Exec α) m :=
  ⟨fun _ _ hpq => hpq.elim, trivial⟩

theorem reads {f : Machine → α} (h : Q (f m) m) : Ensures S Q E (Exec.reads f) m :=
  ⟨fun _ _ hpq => hpq.elim, h⟩

theorem modify {f : Machine → Machine} {Q : Unit → Machine → Prop} (hS : S m (f m))
    (hQ : Q () (f m)) : Ensures S Q E (Exec.modify f) m := by
  refine ⟨?_, hQ⟩
  rintro p q ⟨rfl, rfl⟩
  exact hS

theorem bind {f : α → Exec β} {Q : β → Machine → Prop}
    (h : Ensures S (fun a m' => Ensures S Q E (f a) m') E x m) :
    Ensures S Q E (x >>= f) m := by
  have hc := h.changes
  have ho := h.outcome
  show Ensures S Q E (Exec.bind x f) m
  constructor
  · intro p q hpq
    unfold Exec.bind at hpq
    -- only what is done goes on; a failure ends with the changes made so far
    rcases hx : x m with ⟨_ | _ | _, before, linked⟩
    · rw [hx] at hpq hc ho
      rcases hpq with hpq | hpq
      · exact hc p q hpq
      · exact ho.changes p q hpq
    · rw [hx] at hpq hc
      exact hc p q hpq
    · rw [hx] at hpq hc
      exact hc p q hpq
  · unfold Exec.bind
    rcases hx : x m with ⟨_ | _ | _, before, linked⟩
    · rw [hx] at ho
      exact ho.outcome
    · rw [hx] at ho
      exact ho
    · trivial

theorem within {enter leave : Machine → Machine} (henter : S m (enter m))
    (h : Ensures S (fun a p => S p (leave p) ∧ Q a (leave p))
      (fun e p => S p (leave p) ∧ E e (leave p)) x (enter m)) :
    Ensures S Q E (Exec.within enter leave x) m := by
  have hc := h.changes
  have ho := h.outcome
  constructor
  -- entering, the changes inside, and leaving, which happens after a failure too
  · rintro p q (⟨rfl, rfl⟩ | hpq | ⟨hp, rfl⟩)
    · exact henter
    · exact hc p q hpq
    · cases hx : (x (enter m)).outcome with
      | done a m' => rw [hx] at ho hp; cases hp; exact ho.1
      | fault e m' => rw [hx] at ho hp; cases hp; exact ho.1
      | outOfFuel => rw [hx] at hp; cases hp
  · show Ends Q E ((x (enter m)).outcome.mapMachine leave)
    cases hx : (x (enter m)).outcome with
    | done a m' => rw [hx] at ho; exact ho.2
    | fault e m' => rw [hx] at ho; exact ho.2
    | outOfFuel => trivial

end Ensures

/-! ## Section 3: Computations that relate their first and last state

    A relation that is reflexive and transitive holds between the ends of a
    composed computation if it does so for each part. -/

/-- Relations between states that composed computations inherit from their parts. -/
class Composes (R : Machine → Machine → Prop) : Prop where
  refl : ∀ m, R m m
  trans : ∀ {a b c}, R a b → R b c → R a c

/-- However the computation ends, `R` relates the state before and the state after it. -/
def Moves (R : Machine → Machine → Prop) (x : Exec α) : Prop :=
  ∀ m, Ensures (fun _ _ => True) (fun _ m' => R m m') (fun _ m' => R m m') x m

namespace Moves

variable {R R' : Machine → Machine → Prop} {x : Exec α}

theorem mono (h : Moves R x) (hR : ∀ m m', R m m' → R' m m') : Moves R' x :=
  fun m => (h m).mono (fun _ _ _ => trivial) (fun _ => hR m) (fun _ => hR m)

theorem ends {m m' : Machine} (h : Moves R x) (hm' : (x m).outcome.machine? = some m') :
    R m m' := by
  have hm := h m
  cases hx : (x m).outcome with
  | done a n => rw [hx] at hm'; cases hm'; exact hm.done hx
  | fault e n => rw [hx] at hm'; cases hm'; exact hm.fault hx
  | outOfFuel => rw [hx] at hm'; cases hm'

theorem outOfFuel : Moves R (Exec.outOfFuel : Exec α) := fun _ => .outOfFuel

theorem modify {f : Machine → Machine} (h : ∀ m, R m (f m)) : Moves R (Exec.modify f) :=
  fun m => .modify trivial (h m)

/-- `R'` holds between a state before entering and a state after leaving whenever `R` holds
    between the states just inside. -/
theorem within {enter leave : Machine → Machine}
    (hR : ∀ m m', R (enter m) m' → R' m (leave m')) (h : Moves R x) :
    Moves R' (Exec.within enter leave x) := by
  intro m
  exact .within trivial ((h (enter m)).mono (fun _ _ _ => trivial)
    (fun _ m' hm => ⟨trivial, hR m m' hm⟩) (fun _ m' hm => ⟨trivial, hR m m' hm⟩))

variable [Composes R]

theorem pure {a : α} : Moves R (Pure.pure a : Exec α) :=
  fun m => .pure (Composes.refl m)

theorem fail {pos : Position} {cause : RuntimeCause} : Moves R (Exec.fail pos cause : Exec α) :=
  fun m => .fail (Composes.refl m)

theorem reads {f : Machine → α} : Moves R (Exec.reads f) :=
  fun m => .reads (Composes.refl m)

theorem bind {f : α → Exec β} (h : Moves R x) (hf : ∀ a, Moves R (f a)) :
    Moves R (x >>= f) := by
  intro m
  refine .bind ((h m).mono (fun _ _ _ => trivial) (fun a m' hm => ?_) (fun _ _ hm => hm))
  exact (hf a m').mono (fun _ _ _ => trivial) (fun _ _ hm' => Composes.trans hm hm')
    (fun _ _ hm' => Composes.trans hm hm')

end Moves

/-! ## Section 4: Computations that maintain an invariant -/

/-- From every state with `I` on, `I` holds in all states on the way and at the end, and a result
    satisfies `V`. -/
def Maintains (I : Machine → Prop) (V : α → Prop) (x : Exec α) : Prop :=
  ∀ m, I m → Ensures (fun p q => I p ∧ I q) (fun a m' => I m' ∧ V a) (fun _ m' => I m') x m

namespace Maintains

variable {I : Machine → Prop} {V V' : α → Prop} {x : Exec α}

theorem mono (h : Maintains I V x) (hV : ∀ a, V a → V' a) : Maintains I V' x :=
  fun m hm =>
    (h m hm).mono (fun _ _ hpq => hpq) (fun a _ hq => ⟨hq.1, hV a hq.2⟩) (fun _ _ he => he)

theorem pure {a : α} (h : V a) : Maintains I V (Pure.pure a : Exec α) :=
  fun _ hm => .pure ⟨hm, h⟩

theorem fail {pos : Position} {cause : RuntimeCause} :
    Maintains I V (Exec.fail pos cause : Exec α) :=
  fun _ hm => .fail hm

theorem outOfFuel : Maintains I V (Exec.outOfFuel : Exec α) := fun _ _ => .outOfFuel

theorem reads {f : Machine → α} (h : ∀ m, I m → V (f m)) : Maintains I V (Exec.reads f) :=
  fun m hm => .reads ⟨hm, h m hm⟩

theorem modify {f : Machine → Machine} {V : Unit → Prop} (h : ∀ m, I m → I (f m)) (hV : V ()) :
    Maintains I V (Exec.modify f) :=
  fun m hm => .modify ⟨hm, h m hm⟩ ⟨h m hm, hV⟩

theorem bind {f : α → Exec β} {W : β → Prop} (h : Maintains I V x)
    (hf : ∀ a, V a → Maintains I W (f a)) : Maintains I W (x >>= f) := by
  intro m hm
  exact .bind ((h m hm).mono (fun _ _ hpq => hpq) (fun a m' hq => hf a hq.2 m' hq.1)
    (fun _ _ he => he))

theorem within {enter leave : Machine → Machine} (henter : ∀ m, I m → I (enter m))
    (hleave : ∀ m, I m → I (leave m)) (h : Maintains I V x) :
    Maintains I V (Exec.within enter leave x) := by
  intro m hm
  refine .within ⟨hm, henter m hm⟩ ((h (enter m) (henter m hm)).mono (fun _ _ hpq => hpq) ?_ ?_)
  · rintro a p ⟨hp, ha⟩
    exact ⟨⟨hp, hleave p hp⟩, hleave p hp, ha⟩
  · intro e p hp
    exact ⟨⟨hp, hleave p hp⟩, hleave p hp⟩

end Maintains

end Exec

/-! ## Section 5: Executions one after another -/

namespace Program

/-- The states of a machine between executions of a program: any number of them may have gone
    before, each with its own fuel and ended by success or by failure. -/
inductive Reaches (p : Program) (env : Env) (start : Machine) : Machine → Prop where
  | start : Reaches p env start start
  | execute {m m' : Machine} {fuel : Nat} (before : Reaches p env start m)
      (ends : (p.execute env fuel m).machine? = some m') : Reaches p env start m'

variable {p : Program} {env : Env} {start m : Machine}

/-- A relation that every execution moves along relates the first state to all later ones. -/
theorem Reaches.moved {R : Machine → Machine → Prop} [Exec.Composes R]
    (hp : ∀ fuel, Exec.Moves R (p.execution env fuel)) (h : p.Reaches env start m) :
    R start m := by
  induction h with
  | start => exact Exec.Composes.refl start
  -- an execution that is not over leaves no state for the next one
  | @execute m m' fuel _ ends ih => exact Exec.Composes.trans ih ((hp fuel).ends ends)

/-- What an execution leaves behind satisfies every invariant that it maintains. -/
theorem Reaches.maintained {I : Machine → Prop} {V : Unit → Prop}
    (hp : ∀ fuel, Exec.Maintains I V (p.execution env fuel)) (hstart : I start)
    (h : p.Reaches env start m) : I m := by
  induction h with
  | start => exact hstart
  | @execute m m' fuel _ ends ih =>
    have hm := hp fuel m ih
    unfold Program.execute at ends
    cases hx : (p.execution env fuel m).outcome with
    | done a n => rw [hx] at ends; cases ends; exact (hm.done hx).1
    | fault e n => rw [hx] at ends; cases ends; exact hm.fault hx
    | outOfFuel => rw [hx] at ends; cases ends

end Program

end WordLang
