import WordLang.Proofs.Execution

/-! # The way from the first state to the last

    How a composed computation ends follows from how its parts end, and so
    does the way it takes.  `Through` says of a state that it lies on this
    way: the changes lead to it, and from it to the end if there is one.

    It speaks about computations that run out of fuel too.  What such a run
    has done so far is all that can be said of a run that never ends.

    Computations composed in two ways from the same parts are the same one,
    with the same outcome and the same changes: they are a lawful monad. -/

namespace WordLang

/-! ## Section 1: Changes along the way -/

namespace Leads

variable {changes : Machine → Machine → Prop} {a b : Machine}

/-- A relation that every change respects holds between the ends of the way. -/
theorem moved {R : Machine → Machine → Prop} [Exec.Composes R] (h : Leads changes a b)
    (hR : ∀ p q, changes p q → R p q) : R a b := by
  induction h with
  | here m => exact Exec.Composes.refl m
  | change first _ ih => exact Exec.Composes.trans (hR _ _ first) ih

/-- What differs between the ends of the way differs across one of the changes. -/
theorem crosses {β : Type} (φ : Machine → β) (h : Leads changes a b) (hne : φ b ≠ φ a) :
    ∃ p q, changes p q ∧ φ q ≠ φ p ∧ Leads changes a p ∧ Leads changes p b := by
  induction h with
  | here m => exact absurd rfl hne
  | @change a b c first rest ih =>
    by_cases hfirst : φ b = φ a
    · obtain ⟨p, q, hpq, hdiffer, hreached, honward⟩ := ih (hfirst ▸ hne)
      exact ⟨p, q, hpq, hdiffer, .change first hreached, honward⟩
    · exact ⟨a, b, first, hfirst, .here a, .change first rest⟩

end Leads

/-- A state on the way of an execution: the changes lead to it, and on to the end. -/
structure Execution.Through {α : Type} {start : Machine} (ex : Execution α start) (q : Machine) :
    Prop where
  reached : Leads ex.changes start q
  onward : ∀ m, ex.outcome.machine? = some m → Leads ex.changes q m

/-- What is different at the end has changed at a state on the way. -/
theorem Execution.crosses {α β : Type} {start m' : Machine} {ex : Execution α start}
    (φ : Machine → β) (hend : ex.outcome.machine? = some m') (hne : φ m' ≠ φ start) :
    ∃ p q, ex.changes p q ∧ φ q ≠ φ p ∧ ex.Through p := by
  obtain ⟨p, q, hpq, hdiffer, hreached, honward⟩ := (ex.linked m' hend).crosses φ hne
  refine ⟨p, q, hpq, hdiffer, hreached, ?_⟩
  intro m hm
  obtain rfl := Option.some.inj (hm.symm.trans hend)
  exact honward

namespace Exec

variable {α β : Type} {x : Exec α} {f : α → Exec β} {m : Machine}

/-! ## Section 2: How composed computations end -/

theorem outcome_bind (x : Exec α) (f : α → Exec β) (m : Machine) :
    ((x >>= f) m).outcome =
      match (x m).outcome with
      | .done a m' => (f a m').outcome
      | .fault e m' => .fault e m'
      | .outOfFuel => .outOfFuel := by
  show (Exec.bind x f m).outcome = _
  unfold Exec.bind
  rcases x m with ⟨_ | _ | _, before, linked⟩ <;> rfl

theorem outcome_bind_done {a : α} {m' : Machine} (h : (x m).outcome = .done a m') :
    ((x >>= f) m).outcome = (f a m').outcome := by
  rw [outcome_bind, h]

theorem outcome_bind_fault {e : RuntimeError} {m' : Machine} (h : (x m).outcome = .fault e m') :
    ((x >>= f) m).outcome = .fault e m' := by
  rw [outcome_bind, h]

theorem outcome_bind_outOfFuel (h : (x m).outcome = .outOfFuel) :
    ((x >>= f) m).outcome = .outOfFuel := by
  rw [outcome_bind, h]

/-- A composed computation gives a result if its parts do, one after the other. -/
theorem outcome_bind_eq_done {b : β} {m'' : Machine} :
    ((x >>= f) m).outcome = .done b m'' ↔
      ∃ a m', (x m).outcome = .done a m' ∧ (f a m').outcome = .done b m'' := by
  rw [outcome_bind]
  cases (x m).outcome <;> simp [and_assoc]

/-! ## Section 3: The way of composed computations -/

/-- A change is one of the first part, or of the second if it comes to that. -/
theorem changes_bind {p q : Machine} :
    ((x >>= f) m).changes p q ↔
      (x m).changes p q ∨ ∃ a m', (x m).outcome = .done a m' ∧ (f a m').changes p q := by
  change (Exec.bind x f m).changes p q ↔ _
  unfold Exec.bind
  rcases x m with ⟨_ | _ | _, before, linked⟩
  · simp [and_assoc]
  · simp
  · simp

end Exec

/-! ## Section 4: Computations obey the laws of a monad -/

/-- An execution is determined by its outcome and its changes. -/
theorem Execution.ext {α : Type} {start : Machine} {ex ex' : Execution α start}
    (houtcome : ex.outcome = ex'.outcome) (hchanges : ∀ p q, ex.changes p q ↔ ex'.changes p q) :
    ex = ex' := by
  obtain ⟨outcome, changes, linked⟩ := ex
  obtain ⟨outcome', changes', linked'⟩ := ex'
  obtain rfl : outcome = outcome' := houtcome
  obtain rfl : changes = changes' := funext fun p => funext fun q => propext (hchanges p q)
  rfl

namespace Exec

variable {α β γ : Type}

theorem bind_pure_self (x : Exec α) : (x >>= fun a => Pure.pure a) = x := by
  funext m
  apply Execution.ext
  · rw [outcome_bind]
    cases (x m).outcome <;> rfl
  · intro p q
    rw [changes_bind]
    refine ⟨?_, .inl⟩
    rintro (hpq | ⟨a, m', -, hpq⟩)
    · exact hpq
    · exact hpq.elim

theorem pure_bind_self (a : α) (f : α → Exec β) : (Pure.pure a >>= f) = f a := by
  funext m
  apply Execution.ext
  · exact outcome_bind_done rfl
  · intro p q
    rw [changes_bind]
    constructor
    · rintro (hpq | ⟨b, m', hb, hpq⟩)
      · exact hpq.elim
      · cases hb
        exact hpq
    · exact fun hpq => .inr ⟨a, m, rfl, hpq⟩

theorem bind_bind (x : Exec α) (f : α → Exec β) (g : β → Exec γ) :
    (x >>= f >>= g) = x >>= fun a => f a >>= g := by
  funext m
  apply Execution.ext
  · rw [outcome_bind, outcome_bind, outcome_bind]
    cases (x m).outcome with
    | done a m' => exact (outcome_bind _ _ _).symm
    | fault e m' => rfl
    | outOfFuel => rfl
  · intro p q
    simp only [changes_bind, outcome_bind]
    constructor
    · rintro ((hpq | ⟨a, m', ha, hpq⟩) | ⟨b, m'', hb, hpq⟩)
      · exact .inl hpq
      · exact .inr ⟨a, m', ha, .inl hpq⟩
      -- the second part gave a result, so the first one did
      · cases hx : (x m).outcome with
        | done a m' =>
          rw [hx] at hb
          exact .inr ⟨a, m', rfl, .inr ⟨b, m'', hb, hpq⟩⟩
        | fault e m' => rw [hx] at hb; cases hb
        | outOfFuel => rw [hx] at hb; cases hb
    · rintro (hpq | ⟨a, m', ha, hpq | ⟨b, m'', hb, hpq⟩⟩)
      · exact .inl (.inl hpq)
      · exact .inl (.inr ⟨a, m', ha, hpq⟩)
      · refine .inr ⟨b, m'', ?_, hpq⟩
        rw [ha]
        exact hb

/-- From one state on, what is composed of parts that do the same does the same. -/
theorem bind_congr_at {x y : Exec α} {f g : α → Exec β} {m : Machine} (hx : x m = y m)
    (hf : ∀ a m', (y m).outcome = .done a m' → f a m' = g a m') : (x >>= f) m = (y >>= g) m := by
  apply Execution.ext
  · rw [outcome_bind, outcome_bind, hx]
    cases hy : (y m).outcome with
    | done a m' =>
      dsimp only
      rw [hf a m' hy]
    | fault e m' => rfl
    | outOfFuel => rfl
  · intro p q
    rw [changes_bind, changes_bind, hx]
    refine or_congr_right (exists_congr (fun a => exists_congr (fun m' => ?_)))
    refine and_congr_right (fun hy => ?_)
    rw [hf a m' hy]

/-- Looking at the machine leaves all to what comes after it. -/
theorem reads_bind_at (φ : Machine → α) (f : α → Exec β) (m : Machine) :
    (reads φ >>= f) m = f (φ m) m := by
  apply Execution.ext
  · exact outcome_bind_done rfl
  · intro p q
    rw [changes_bind]
    constructor
    · rintro (hpq | ⟨a, m', ha, hpq⟩)
      · exact hpq.elim
      · cases ha
        exact hpq
    · exact fun hpq => .inr ⟨φ m, m, rfl, hpq⟩

/-- After a failure there is nothing to go on with. -/
theorem fail_bind (pos : Position) (cause : RuntimeCause) (f : α → Exec β) :
    (fail pos cause >>= f) = fail pos cause := rfl

instance : LawfulMonad Exec :=
  LawfulMonad.mk' Exec (fun x => bind_pure_self x) pure_bind_self bind_bind

end Exec

/-! ## Section 5: States on the way of composed computations -/

namespace Execution.Through

variable {α β : Type} {x : Exec α} {f : α → Exec β} {m q : Machine}

theorem start : (x m).Through m := ⟨.here m, (x m).linked⟩

theorem modify {g : Machine → Machine} : (Exec.modify g m).Through (g m) := by
  refine ⟨.single ⟨rfl, rfl⟩, ?_⟩
  intro m' hm'
  obtain rfl := Option.some.inj hm'
  exact .here _

/-- A state on the way of the first part. -/
theorem bind_left (h : (x m).Through q) : ((x >>= f) m).Through q := by
  obtain ⟨hreached, honward⟩ := h
  show (Exec.bind x f m).Through q
  unfold Exec.bind
  rcases hx : x m with ⟨a, m'⟩ | ⟨e, m'⟩ | _ <;> rw [hx] at hreached honward
  · refine ⟨hreached.mono (fun _ _ => Or.inl), ?_⟩
    intro m'' hm''
    -- on to the end of the first part, then along the second
    have hsecond := (f a m').linked m'' hm''
    exact ((honward m' rfl).mono (fun _ _ => Or.inl)).trans (hsecond.mono (fun _ _ => Or.inr))
  · exact ⟨hreached, honward⟩
  · exact ⟨hreached, fun _ h => nomatch h⟩

/-- A state on the way of the second part. -/
theorem bind_right {a : α} {m' : Machine} (hx : (x m).outcome = .done a m')
    (h : (f a m').Through q) : ((x >>= f) m).Through q := by
  obtain ⟨hreached, honward⟩ := h
  show (Exec.bind x f m).Through q
  unfold Exec.bind
  rcases hxm : x m with ⟨o, before, linked⟩
  rw [hxm] at hx
  subst hx
  refine ⟨?_, fun m'' hm'' => (honward m'' hm'').mono (fun _ _ => Or.inr)⟩
  have hfirst := linked m' rfl
  exact (hfirst.mono (fun _ _ => Or.inl)).trans (hreached.mono (fun _ _ => Or.inr))

/-- A state on the way of what is done between entering and leaving. -/
theorem within {enter leave : Machine → Machine} (h : (x (enter m)).Through q) :
    (Exec.within enter leave x m).Through q := by
  obtain ⟨hreached, honward⟩ := h
  constructor
  · exact .change (Or.inl ⟨rfl, rfl⟩) (hreached.mono (fun _ _ hpq => Or.inr (Or.inl hpq)))
  · intro m' hm'
    have hinner : (x (enter m)).outcome.machine?.map leave = some m' := by
      rw [← Outcome.machine?_mapMachine]
      exact hm'
    obtain ⟨last, hlast, rfl⟩ := Option.map_eq_some_iff.mp hinner
    refine Leads.trans (b := last) ?_ (.single (Or.inr (Or.inr ⟨hlast, rfl⟩)))
    exact (honward last hlast).mono (fun _ _ hpq => Or.inr (Or.inl hpq))

end Execution.Through

end WordLang
