import WordLang.Proofs.Acceptance

/-! # The order of items

    Functions, statics and constant tables may stand anywhere among the
    items of a program.  Moving them about changes the order of the faults
    that are found, and which of two declarations of one name is the first,
    but not whether there are faults; and where there are none, neither the
    declarations nor a run depend on the order.  What matters is the order of
    the top-level statements alone. -/

namespace WordLang

namespace Program

variable {p q : Program} {decls : Declarations}

/-! ## Section 1: Acceptance -/

theorem names_same_of_perm (hperm : p.items.Perm q.items) : p.names.Same q.names := by
  constructor
  · exact fun _ => ((hperm.filterMap Item.function?).map Function.name).mem_iff.symm
  · exact fun _ => ((hperm.filterMap Item.static?).map StaticDecl.name).mem_iff.symm
  · exact fun _ => ((hperm.filterMap Item.const?).map ConstDecl.name).mem_iff.symm
  · exact fun _ => Iff.rfl

theorem Acceptable.of_perm (h : p.Acceptable) (hperm : p.items.Perm q.items)
    (hstatements : p.statements = q.statements) : q.Acceptable := by
  have hfunctions : p.functions.Perm q.functions := hperm.filterMap Item.function?
  have hconsts : p.consts.Perm q.consts := hperm.filterMap Item.const?
  have hnames := names_same_of_perm hperm
  constructor
  · exact fun item hitem => h.limits item (hperm.mem_iff.mpr hitem)
  · exact (hfunctions.map Function.name).nodup_iff.mp h.functions
  · exact fun f hf => h.statics f (hfunctions.mem_iff.mpr hf)
  · apply (hperm.pairwise_iff _).mp h.globals
    intro i j hdistinct name hj hi
    exact hdistinct name hi hj
  · exact fun d hd => h.consts d (hconsts.mem_iff.mpr hd)
  · intro f hf
    rw [f.nameErrors_congr hnames]
    exact h.bodies f (hfunctions.mem_iff.mpr hf)
  · rw [Statement.blockNameErrors_congr hnames, ← hstatements]
    exact h.topLevel

/-! ## Section 2: Declarations -/

theorem check_of_perm (hperm : p.items.Perm q.items) (hstatements : p.statements = q.statements)
    (h : p.check = .ok decls) : q.check = .ok decls := by
  have hq := check_of_acceptable ((acceptable_of_check h).of_perm hperm hstatements)
  have hfunctions : p.functions.Perm q.functions := hperm.filterMap Item.function?
  have htable : decls.functions = q.declarations.1.functions := by
    apply NameMap.eq_of_toList_perm
    exact (oneSlotEach_of_check h).functions.trans
      ((hfunctions.map _).trans (oneSlotEach_of_check hq).functions.symm)
  have hstore : decls.store = q.declarations.1.store := by
    apply store_eq_of_check h hq (hperm.filterMap Item.static?) (hperm.filterMap Item.const?)
    · exact fun f hf => ⟨f, hfunctions.mem_iff.mp hf, rfl, .refl _⟩
    · exact fun g hg => ⟨g, hfunctions.mem_iff.mpr hg, rfl⟩
  rw [hq]
  calc Except.ok q.declarations.1
    _ = .ok ⟨q.declarations.1.functions, q.declarations.1.store⟩ := rfl
    _ = .ok ⟨decls.functions, decls.store⟩ := by rw [htable, hstore]
    _ = .ok decls := rfl

/-! ## Section 3: Runs -/

/-- The order of declarations is irrelevant.  Two programs with the same items, in any order that
    keeps the top-level statements in theirs, are both accepted or both rejected.  If they are
    accepted they have the same functions and the same slots, and with every configuration and every
    fuel the same run: the same events, and the same memory, the same failure or none of both. -/
theorem item_order_irrelevant (p q : Program) (hperm : p.items.Perm q.items)
    (hstatements : p.statements = q.statements) :
    (∀ decls, p.check = .ok decls ↔ q.check = .ok decls) ∧
    ∀ decls, p.check = .ok decls → ∀ config fuel,
      p.trace config fuel = q.trace config fuel ∧ p.run config fuel = q.run config fuel := by
  constructor
  · intro decls
    exact ⟨check_of_perm hperm hstatements, check_of_perm hperm.symm hstatements.symm⟩
  · intro decls hcheck config fuel
    have hcheck' := check_of_perm hperm hstatements hcheck
    have htrace : p.trace config fuel = q.trace config fuel := by
      simp only [trace, execute, execution, hcheck, hcheck', hstatements]
    exact ⟨htrace, by rw [run, run, htrace]⟩

/-- A function that reads a table into a static, and a call of it before anything else. -/
def callFirst : Program :=
  ⟨[.statement (.expr ⟨1, 1⟩ (.call ⟨1, 1⟩ "f" [])),
    .function ⟨"f", [], none, [.assign ⟨2, 8⟩ .set (.var "G") (.index ⟨2, 15⟩
      (.literal ⟨2, 12⟩ 1) "T")], ⟨2, 1⟩⟩,
    .const ⟨"T", .array .byte 2, [3, 4], ⟨3, 1⟩⟩,
    .static ⟨"G", .uint .byte, ⟨4, 1⟩⟩]⟩

/-- The same items with the call at the end. -/
def callLast : Program := ⟨callFirst.items.reverse⟩

/-- Both programs run to the same memory. -/
theorem item_order_irrelevant_callFirst :
    (∃ decls, callFirst.check = .ok decls ∧ callLast.check = .ok decls) ∧
    ∃ memory, callFirst.run .default 9 = some (.ok memory) ∧
      callLast.run .default 9 = some (.ok memory) ∧
      memory.toList = [("G", .scalar .byte 4), ("T", .array .byte #[3, 4])] := by
  have hperm : callFirst.items.Perm callLast.items := (List.reverse_perm _).symm
  obtain ⟨hchecks, hruns⟩ := item_order_irrelevant callFirst callLast hperm rfl
  have hcheck : callFirst.check = .ok callFirst.declarations.1 := rfl
  have hrun := (hruns _ hcheck .default 9).2
  exact ⟨⟨_, hcheck, (hchecks _).mp hcheck⟩, _, rfl, hrun.symm.trans rfl, rfl⟩

end Program

end WordLang
