import WordLang.Proofs.Declared

/-! # Lexical scope

    What a name means is fixed by where it stands.  A `Site` is a place in a
    program: the function it is in, and for each block around it the names
    bound where the block opens and the statements of the block that come
    before the place.  From this alone `meaning?` and `violation?` say what a
    name means there and what is wrong with it; nothing is carried along from
    one occurrence to the next, so a fault at one of them has no effect on
    any other.

    The names pass goes through a program once, with a stack of scopes that
    it changes on the way.  It reports the violation of every occurrence that
    has one, once and in source order.  The invariant of the traversal is
    `Reflects`: the stack holds, scope by scope, the names that the blocks
    around the site bind. -/

namespace WordLang

/-! ## Section 1: Places in a program -/

namespace Statement

/-- The name that a `let` adds to its block. -/
def letName? : Statement → Option String
  | .letVar _ name _ _ => some name
  | _ => none

/-- The blocks of a statement, each with the names bound where it opens. -/
def blocks : Statement → List (List String × List Statement)
  | .ifThen _ _ yes => [([], yes)]
  | .ifElse _ _ yes no => [([], yes), ([], no)]
  | .forRange _ var _ _ _ body => [([var], body)]
  | .loop _ body => [([], body)]
  | _ => []

end Statement

/-- A block around a place: the names bound where it opens and its statements before the place. -/
structure Level where
  binders : List String
  before  : List Statement

/-- The names that a block binds up to a place in it. -/
def Level.bound (l : Level) : List String := l.binders ++ l.before.filterMap Statement.letName?

/-- A place in a program: the function it is in, and the blocks around it, the innermost first. -/
structure Site where
  function : Option Function
  levels   : List Level

namespace Site

/-- A place in a block of a statement that stands at a site. -/
def inside (site : Site) (l : Level) : Site := { site with levels := l :: site.levels }

/-- The variables that are seen at a site. -/
def visible (site : Site) : List String := site.levels.flatMap Level.bound

/-- The variables of the scope that a site is in. -/
def sameScope (site : Site) : List String := (site.levels.head?.map Level.bound).getD []

/-- The statics declared anywhere in the function that a site is in. -/
def ownStatics (site : Site) : List StaticDecl :=
  site.function.toList.flatMap Function.bodyStatics

end Site

/-! ## Section 2: Occurrences of names and their violations -/

/-- What a name is there for. -/
inductive Mention where
  | use (name : String)
  | assign (name : String)
  | call (function : String)
  /-- A `let`, a parameter or a loop variable. -/
  | bind (name : String)
  /-- A static of a function. -/
  | static (name : String)

/-- A name in a program: where it stands, the place that a fault of it is reported at, and what
    it is there for. -/
structure Occurrence where
  site    : Site
  pos     : Position
  mention : Mention

/-- What a name means at a site: a variable that is seen there, or else a static of the function
    or of the program, or else a constant table. -/
def Program.meaning? (p : Program) (site : Site) (name : String) : Option Binding :=
  if name ∈ site.visible then some .bound
  else if name ∈ site.ownStatics.map StaticDecl.name ∨ name ∈ p.statics.map StaticDecl.name then
    some .static
  else if name ∈ p.consts.map ConstDecl.name then some .const
  else none

/-- What is wrong with an occurrence of a name. -/
def Occurrence.violation? (o : Occurrence) (p : Program) : Option DeclError :=
  match o.mention with
  | .use name =>
    if p.meaning? o.site name = none then some ⟨o.pos, .undefinedIdentifier name⟩ else none
  | .assign name =>
    match p.meaning? o.site name with
    | none => some ⟨o.pos, .undefinedIdentifier name⟩
    | some .const => some ⟨o.pos, .assignToConst name⟩
    | some _ => none
  | .call function =>
    if function ∈ p.functions.map Function.name then none
    else some ⟨o.pos, .undefinedFunction function⟩
  | .bind name =>
    if name ∈ o.site.sameScope then some ⟨o.pos, .duplicateLocal name⟩ else none
  | .static name =>
    o.site.function.bind fun f =>
      if name ∈ f.params.map Param.name then some ⟨o.pos, .duplicateStatic f.name name⟩ else none

namespace Expr

mutual

/-- The names in an expression, in the order of evaluation. -/
def mentions : Expr → List (Position × Mention)
  | .literal _ _ => []
  | .ident pos name => [(pos, .use name)]
  | .index pos offset array => mentions offset ++ [(pos, .use array)]
  | .binary _ _ left right => mentions left ++ mentions right
  | .call pos function args => (pos, .call function) :: argsMentions args

/-- The names in arguments. -/
def argsMentions : List Expr → List (Position × Mention)
  | [] => []
  | e :: rest => mentions e ++ argsMentions rest

end

end Expr

/-- The names in an assignment's target. -/
def Place.mentions (pos : Position) : Place → List (Position × Mention)
  | .var name => [(pos, .assign name)]
  | .elem offset array => offset.mentions ++ [(pos, .assign array)]

namespace Statement

/-- The names in a statement that stand where it stands: those in its blocks do not, and neither
    does a loop variable. -/
def mentions : Statement → List (Position × Mention)
  | .letVar pos name _ value => value.mentions ++ [(pos, .bind name)]
  | .assign pos _ place value => place.mentions pos ++ value.mentions
  | .ifThen _ cond _ | .ifElse _ cond _ _ => cond.mentions
  | .forRange _ _ _ start stop _ => start.mentions ++ stop.mentions
  | .ret _ value => value.toList.flatMap Expr.mentions
  | .expr _ value => value.mentions
  | .static _ | .loop _ _ | .breakLoop _ | .continueLoop _ | .panic _ => []

/-- The loop variable that a statement binds, in the scope of its body. -/
def loopVariable? : Statement → Option (Position × Mention)
  | .forRange pos var _ _ _ _ => some (pos, .bind var)
  | _ => none

end Statement

/-- A name that stands at a site. -/
def Site.occurrence (site : Site) (m : Position × Mention) : Occurrence := ⟨site, m.1, m.2⟩

namespace Program

/-- A statement stands at a site. -/
inductive Stands (p : Program) : Site → Statement → Prop where
  | topLevel {before after : List Statement} {s : Statement}
      (hsplit : p.statements = before ++ s :: after) :
      Stands p ⟨none, [⟨[], before⟩]⟩ s
  | body {f : Function} {before after : List Statement} {s : Statement}
      (hf : f ∈ p.functions) (hsplit : f.body = before ++ s :: after) :
      Stands p ⟨some f, [⟨f.params.map Param.name, before⟩]⟩ s
  | inner {site : Site} {outer : Statement} {binders : List String} {block : List Statement}
      {before after : List Statement} {s : Statement}
      (houter : Stands p site outer) (hblock : (binders, block) ∈ outer.blocks)
      (hsplit : block = before ++ s :: after) :
      Stands p (site.inside ⟨binders, before⟩) s

/-- A name occurs in a program. -/
inductive Occurs (p : Program) : Occurrence → Prop where
  | mention {site : Site} {s : Statement} {m : Position × Mention}
      (hs : p.Stands site s) (hm : m ∈ s.mentions) : Occurs p (site.occurrence m)
  | loopVariable {site : Site} {s : Statement} {m : Position × Mention}
      (hs : p.Stands site s) (hm : s.loopVariable? = some m) :
      Occurs p ((site.inside ⟨[], []⟩).occurrence m)
  /-- A parameter sees the parameters before it. -/
  | param {f : Function} {before after : List Param} {q : Param}
      (hf : f ∈ p.functions) (hsplit : f.params = before ++ q :: after) :
      Occurs p ⟨⟨some f, [⟨before.map Param.name, []⟩]⟩, f.pos, .bind q.name⟩
  | static {f : Function} {d : StaticDecl}
      (hf : f ∈ p.functions) (hd : .static d ∈ Statement.flatBlock f.body) :
      Occurs p ⟨⟨some f, []⟩, d.pos, .static d.name⟩

end Program

/-! ## Section 3: All occurrences in source order -/

namespace Statement

mutual

/-- A statement that stands at a site and all statements in its blocks, with their sites, in
    source order. -/
def places (site : Site) : Statement → List (Site × Statement)
  | .ifThen pos cond yes => (site, .ifThen pos cond yes) :: blockPlaces site [] [] yes
  | .ifElse pos cond yes no =>
    (site, .ifElse pos cond yes no) :: (blockPlaces site [] [] yes ++ blockPlaces site [] [] no)
  | .forRange pos var ty start stop body =>
    (site, .forRange pos var ty start stop body) :: blockPlaces site [var] [] body
  | .loop pos body => (site, .loop pos body) :: blockPlaces site [] [] body
  | s => [(site, s)]

/-- The statements of a block that come after those in `before`, and all statements in their
    blocks. -/
def blockPlaces (outer : Site) (binders : List String) (before : List Statement) :
    List Statement → List (Site × Statement)
  | [] => []
  | s :: rest =>
    places (outer.inside ⟨binders, before⟩) s ++ blockPlaces outer binders (before ++ [s]) rest

end

/-- The names in a statement that stands at a site, without those in its blocks. -/
def occurrences (site : Site) (s : Statement) : List Occurrence :=
  s.mentions.map site.occurrence ++
    s.loopVariable?.toList.map (site.inside ⟨[], []⟩).occurrence

/-- The names in statements, each of them without those in its blocks. -/
def occurrencesAt (places : List (Site × Statement)) : List Occurrence :=
  places.flatMap fun place => place.2.occurrences place.1

end Statement

namespace Function

/-- The parameters of a function that come after those in `before`. -/
def paramOccurrences (f : Function) (before : List Param) : List Param → List Occurrence
  | [] => []
  | q :: rest =>
    ⟨⟨some f, [⟨before.map Param.name, []⟩]⟩, f.pos, .bind q.name⟩
      :: paramOccurrences f (before ++ [q]) rest

/-- The names in a function: its parameters, its statics, and the names in its body. -/
def occurrences (f : Function) : List Occurrence :=
  f.paramOccurrences [] f.params
    ++ f.bodyStatics.map (fun d => ⟨⟨some f, []⟩, d.pos, .static d.name⟩)
    ++ Statement.occurrencesAt
        (Statement.blockPlaces ⟨some f, []⟩ (f.params.map Param.name) [] f.body)

end Function

/-- The names in a program: in the functions in source order, then in the top-level statements. -/
def Program.occurrences (p : Program) : List Occurrence :=
  p.functions.flatMap Function.occurrences
    ++ Statement.occurrencesAt (Statement.blockPlaces ⟨none, []⟩ [] [] p.statements)

/-! ## Section 4: The list holds what occurs

    The blocks of a statement are smaller than the statement, so what holds
    of a statement whenever it holds of all statements in its blocks holds of
    every statement.  The proofs below go by this induction, and for a single
    block by induction on its statements. -/

namespace Statement

theorem sizeOf_lt_of_mem_blocks {s t : Statement} {b : List String × List Statement}
    (hb : b ∈ s.blocks) (ht : t ∈ b.2) : sizeOf t < sizeOf s := by
  have hlt := List.sizeOf_lt_of_mem ht
  cases s with
  | ifThen pos cond yes =>
    cases List.mem_singleton.mp hb
    simp only [ifThen.sizeOf_spec] at hlt ⊢
    omega
  | ifElse pos cond yes no =>
    have hcases : b = ([], yes) ∨ b = ([], no) := by simpa [blocks] using hb
    rcases hcases with rfl | rfl <;> simp only [ifElse.sizeOf_spec] at hlt ⊢ <;> omega
  | forRange pos var ty start stop body =>
    cases List.mem_singleton.mp hb
    simp only [forRange.sizeOf_spec] at hlt ⊢
    omega
  | loop pos body =>
    cases List.mem_singleton.mp hb
    simp only [loop.sizeOf_spec] at hlt ⊢
    omega
  | _ => cases hb

/-- What a statement has if all statements in its blocks have it, every statement has. -/
theorem blockInduction {P : Statement → Prop}
    (hstep : ∀ s : Statement, (∀ b ∈ s.blocks, ∀ t ∈ b.2, P t) → P s) (s : Statement) : P s :=
  hstep s fun _ hb _ ht =>
    have := sizeOf_lt_of_mem_blocks hb ht
    blockInduction hstep _
termination_by sizeOf s

/-- A statement comes first, then the statements in its blocks. -/
theorem places_eq (site : Site) (s : Statement) :
    s.places site = (site, s) :: s.blocks.flatMap (fun b => blockPlaces site b.1 [] b.2) := by
  cases s <;> simp [places, blocks]

theorem self_mem_places (site : Site) (s : Statement) : (site, s) ∈ s.places site := by
  rw [places_eq]
  exact List.mem_cons_self

/-- Each statement of a block is listed with the statements before it. -/
theorem mem_blockPlaces (outer : Site) (binders : List String) (before mid after : List Statement)
    (s : Statement) :
    (outer.inside ⟨binders, before ++ mid⟩, s) ∈
      blockPlaces outer binders before (mid ++ s :: after) := by
  induction mid generalizing before with
  | nil =>
    rw [List.append_nil, List.nil_append, blockPlaces]
    exact List.mem_append_left _ (self_mem_places _ s)
  | cons t rest ih =>
    rw [List.cons_append, blockPlaces]
    have hrest := ih (before ++ [t])
    rw [List.append_assoc] at hrest
    exact List.mem_append_right _ hrest

/-- With every statement, the statements in its blocks are listed. -/
def Saturated (listed : List (Site × Statement)) : Prop :=
  ∀ q ∈ listed, ∀ b ∈ q.2.blocks, ∀ before t after, b.2 = before ++ t :: after →
    (q.1.inside ⟨b.1, before⟩, t) ∈ listed

theorem Saturated.append {first second : List (Site × Statement)} (hfirst : Saturated first)
    (hsecond : Saturated second) : Saturated (first ++ second) := by
  intro q hq b hb before t after hsplit
  rcases List.mem_append.mp hq with hq | hq
  · exact List.mem_append_left _ (hfirst q hq b hb before t after hsplit)
  · exact List.mem_append_right _ (hsecond q hq b hb before t after hsplit)

theorem Saturated.flatMap {α : Type} {f : α → List (Site × Statement)} {xs : List α}
    (h : ∀ x ∈ xs, Saturated (f x)) : Saturated (xs.flatMap f) := by
  intro q hq b hb before t after hsplit
  obtain ⟨x, hx, hqx⟩ := List.mem_flatMap.mp hq
  exact List.mem_flatMap.mpr ⟨x, hx, h x hx q hqx b hb before t after hsplit⟩

theorem saturated_blockPlaces_of {ss : List Statement}
    (h : ∀ t ∈ ss, ∀ site, Saturated (places site t)) (outer : Site) (binders : List String)
    (before : List Statement) : Saturated (blockPlaces outer binders before ss) := by
  induction ss generalizing before with
  | nil =>
    intro q hq
    cases hq
  | cons s rest ih =>
    have hs := h s List.mem_cons_self
    have hrest := ih fun t ht => h t (List.mem_cons_of_mem _ ht)
    exact Saturated.append (hs _) (hrest _)

theorem saturated_places (s : Statement) : ∀ site, Saturated (s.places site) := by
  induction s using blockInduction with
  | hstep s ih =>
    intro site
    have hblocks : Saturated (s.blocks.flatMap (fun b => blockPlaces site b.1 [] b.2)) :=
      Saturated.flatMap fun b hb => saturated_blockPlaces_of (ih b hb) site b.1 []
    rw [places_eq]
    intro q hq b hb before t after hsplit
    apply List.mem_cons_of_mem
    rcases List.mem_cons.mp hq with rfl | hq
    -- the statement itself: its own blocks are what follows it in the list
    · have hmem := mem_blockPlaces site b.1 [] before after t
      rw [← hsplit] at hmem
      exact List.mem_flatMap.mpr ⟨b, hb, hmem⟩
    · exact hblocks q hq b hb before t after hsplit

theorem saturated_blockPlaces (outer : Site) (binders : List String) (before ss : List Statement) :
    Saturated (blockPlaces outer binders before ss) :=
  saturated_blockPlaces_of (fun t _ => saturated_places t) outer binders before

section Standing

variable {p : Program}

/-- The statements of a block are listed where they stand, if this holds of each of them. -/
theorem stands_of_mem_blockPlaces {outer : Site} {binders : List String} {ss : List Statement}
    (hplaces : ∀ t ∈ ss, ∀ site, p.Stands site t → ∀ q ∈ t.places site, p.Stands q.1 q.2)
    (before : List Statement)
    (hblock : ∀ mid t after, ss = mid ++ t :: after →
      p.Stands (outer.inside ⟨binders, before ++ mid⟩) t) :
    ∀ q ∈ blockPlaces outer binders before ss, p.Stands q.1 q.2 := by
  induction ss generalizing before with
  | nil =>
    intro q hq
    cases hq
  | cons s rest ih =>
    intro q hq
    rw [blockPlaces] at hq
    rcases List.mem_append.mp hq with hq | hq
    · have hs : p.Stands (outer.inside ⟨binders, before⟩) s := by
        have hfirst := hblock [] s rest rfl
        rwa [List.append_nil] at hfirst
      exact hplaces s List.mem_cons_self _ hs q hq
    · apply ih (fun t ht => hplaces t (List.mem_cons_of_mem _ ht)) (before ++ [s]) ?_ q hq
      intro mid t after hsplit
      have hlater := hblock (s :: mid) t after (by rw [hsplit]; rfl)
      rw [List.append_assoc]
      exact hlater

theorem stands_of_mem_places (s : Statement) :
    ∀ site, p.Stands site s → ∀ q ∈ s.places site, p.Stands q.1 q.2 := by
  induction s using blockInduction with
  | hstep s ih =>
    intro site hs q hq
    rw [places_eq] at hq
    rcases List.mem_cons.mp hq with rfl | hq
    · exact hs
    · obtain ⟨b, hb, hqb⟩ := List.mem_flatMap.mp hq
      apply stands_of_mem_blockPlaces (ih b hb) [] ?_ q hqb
      intro mid t after hsplit
      exact .inner hs hb hsplit

end Standing

end Statement

namespace Program

variable {p : Program}

/-- The statements of a program with their sites: those in functions, then the top level. -/
def places (p : Program) : List (Site × Statement) :=
  p.functions.flatMap (fun f =>
    Statement.blockPlaces ⟨some f, []⟩ (f.params.map Param.name) [] f.body)
    ++ Statement.blockPlaces ⟨none, []⟩ [] [] p.statements

theorem mem_places_of_stands {site : Site} {s : Statement} (h : p.Stands site s) :
    (site, s) ∈ p.places := by
  have hsaturated : Statement.Saturated p.places :=
    Statement.Saturated.append
      (Statement.Saturated.flatMap fun _ _ => Statement.saturated_blockPlaces _ _ _ _)
      (Statement.saturated_blockPlaces _ _ _ _)
  induction h with
  | @topLevel before after s hsplit =>
    apply List.mem_append_right
    rw [hsplit]
    exact Statement.mem_blockPlaces ⟨none, []⟩ [] [] before after s
  | @body f before after s hf hsplit =>
    apply List.mem_append_left
    apply List.mem_flatMap.mpr
    refine ⟨f, hf, ?_⟩
    have hmem := Statement.mem_blockPlaces ⟨some f, []⟩ (f.params.map Param.name) [] before after s
    rw [← hsplit] at hmem
    exact hmem
  | inner houter hblock hsplit ih => exact hsaturated _ ih _ hblock _ _ _ hsplit

theorem stands_of_mem_body {f : Function} (hf : f ∈ p.functions) :
    ∀ q ∈ Statement.blockPlaces ⟨some f, []⟩ (f.params.map Param.name) [] f.body,
      p.Stands q.1 q.2 := by
  apply Statement.stands_of_mem_blockPlaces (fun t _ => Statement.stands_of_mem_places t)
  intro mid t after hsplit
  exact .body hf hsplit

theorem stands_of_mem_statements :
    ∀ q ∈ Statement.blockPlaces ⟨none, []⟩ [] [] p.statements, p.Stands q.1 q.2 := by
  apply Statement.stands_of_mem_blockPlaces (fun t _ => Statement.stands_of_mem_places t)
  intro mid t after hsplit
  exact .topLevel hsplit

/-- The names in a listed statement are listed. -/
theorem mem_occurrences_of_mem_places {site : Site} {s : Statement} (hs : (site, s) ∈ p.places)
    {o : Occurrence} (ho : o ∈ s.occurrences site) : o ∈ p.occurrences := by
  rcases List.mem_append.mp hs with hs | hs
  · obtain ⟨f, hf, hbody⟩ := List.mem_flatMap.mp hs
    have hmem : o ∈ f.occurrences :=
      List.mem_append_right _ (List.mem_flatMap.mpr ⟨_, hbody, ho⟩)
    exact List.mem_append_left _ (List.mem_flatMap.mpr ⟨f, hf, hmem⟩)
  · exact List.mem_append_right _ (List.mem_flatMap.mpr ⟨_, hs, ho⟩)

theorem occurs_of_stands {site : Site} {s : Statement} (hs : p.Stands site s) {o : Occurrence}
    (ho : o ∈ s.occurrences site) : p.Occurs o := by
  rcases List.mem_append.mp ho with ho | ho
  · obtain ⟨m, hm, rfl⟩ := List.mem_map.mp ho
    exact .mention hs hm
  · obtain ⟨m, hm, rfl⟩ := List.mem_map.mp ho
    exact .loopVariable hs (Option.mem_toList.mp hm)

end Program

namespace Function

/-- The parameters are listed with those before them. -/
theorem mem_paramOccurrences {f : Function} {o : Occurrence} (before ps : List Param) :
    o ∈ f.paramOccurrences before ps ↔ ∃ mid q after, ps = mid ++ q :: after ∧
      o = ⟨⟨some f, [⟨(before ++ mid).map Param.name, []⟩]⟩, f.pos, .bind q.name⟩ := by
  induction ps generalizing before with
  | nil => simp [paramOccurrences]
  | cons q rest ih =>
    rw [paramOccurrences, List.mem_cons, ih]
    constructor
    · rintro (rfl | ⟨mid, q', after, rfl, rfl⟩)
      · exact ⟨[], q, rest, rfl, by rw [List.append_nil]⟩
      · exact ⟨q :: mid, q', after, rfl, by rw [List.append_assoc]; rfl⟩
    · rintro ⟨mid, q', after, hsplit, rfl⟩
      cases mid with
      | nil =>
        cases hsplit
        exact Or.inl (by rw [List.append_nil])
      | cons first mid =>
        cases hsplit
        exact Or.inr ⟨mid, q', after, rfl, by rw [List.append_assoc]; rfl⟩

/-- The statics are those declared anywhere in the body. -/
theorem mem_staticOccurrences {f : Function} {o : Occurrence} :
    o ∈ f.bodyStatics.map (fun d => (⟨⟨some f, []⟩, d.pos, .static d.name⟩ : Occurrence)) ↔
      ∃ d, .static d ∈ Statement.flatBlock f.body ∧ o = ⟨⟨some f, []⟩, d.pos, .static d.name⟩ := by
  constructor
  · intro ho
    obtain ⟨d, hd, rfl⟩ := List.mem_map.mp ho
    exact ⟨d, Statement.mem_filterMap_static?.mp hd, rfl⟩
  · rintro ⟨d, hd, rfl⟩
    exact List.mem_map.mpr ⟨d, Statement.mem_filterMap_static?.mpr hd, rfl⟩

end Function

/-- The list holds what occurs in the program, and nothing else. -/
theorem Program.mem_occurrences_iff {p : Program} {o : Occurrence} :
    o ∈ p.occurrences ↔ p.Occurs o := by
  constructor
  · intro ho
    rcases List.mem_append.mp ho with ho | ho
    · obtain ⟨f, hf, ho⟩ := List.mem_flatMap.mp ho
      rcases List.mem_append.mp ho with ho | ho
      · rcases List.mem_append.mp ho with ho | ho
        · obtain ⟨before, q, after, hsplit, rfl⟩ := (Function.mem_paramOccurrences [] _).mp ho
          exact .param hf hsplit
        · obtain ⟨d, hd, rfl⟩ := Function.mem_staticOccurrences.mp ho
          exact .static hf hd
      · obtain ⟨q, hq, ho⟩ := List.mem_flatMap.mp ho
        exact occurs_of_stands (stands_of_mem_body hf q hq) ho
    · obtain ⟨q, hq, ho⟩ := List.mem_flatMap.mp ho
      exact occurs_of_stands (stands_of_mem_statements q hq) ho
  · intro ho
    -- a name in the head of a function is listed with the function
    have hhead : ∀ f ∈ p.functions, o ∈ f.occurrences → o ∈ p.occurrences := fun f hf hmem =>
      List.mem_append_left _ (List.mem_flatMap.mpr ⟨f, hf, hmem⟩)
    cases ho with
    | mention hs hm =>
      apply mem_occurrences_of_mem_places (mem_places_of_stands hs)
      exact List.mem_append_left _ (List.mem_map.mpr ⟨_, hm, rfl⟩)
    | loopVariable hs hm =>
      apply mem_occurrences_of_mem_places (mem_places_of_stands hs)
      exact List.mem_append_right _ (List.mem_map.mpr ⟨_, Option.mem_toList.mpr hm, rfl⟩)
    | @param f before after q hf hsplit =>
      apply hhead f hf
      have hparam := (Function.mem_paramOccurrences (f := f) [] f.params).mpr
        ⟨before, q, after, hsplit, rfl⟩
      exact List.mem_append_left _ (List.mem_append_left _ hparam)
    | @static f d hf hd =>
      apply hhead f hf
      have hstatic := Function.mem_staticOccurrences (f := f).mpr ⟨d, hd, rfl⟩
      exact List.mem_append_left _ (List.mem_append_right _ hstatic)

/-! ## Section 5: The stack of scopes

    Statement by statement, the stack that the names pass keeps goes along
    with the site of the statement. -/

/-- A stack holds, scope by scope, the names that the blocks around a place bind. -/
inductive Reflects : Scopes → List Level → Prop where
  | nil : Reflects [] []
  | cons {scope : List String} {scopes : Scopes} {l : Level} {levels : List Level}
      (hscope : ∀ name, name ∈ scope ↔ name ∈ l.bound) (hrest : Reflects scopes levels) :
      Reflects (scope :: scopes) (l :: levels)

namespace Reflects

variable {scopes : Scopes} {levels : List Level}

/-- A block opens with a scope that holds just its binders. -/
theorem enter (h : Reflects scopes levels) (binders : List String) :
    Reflects (binders :: scopes) (⟨binders, []⟩ :: levels) := by
  apply Reflects.cons _ h
  intro name
  simp [Level.bound]

/-- From one statement of a block to the next: only a `let` adds a name, and a name that the
    scope has already does no harm. -/
theorem step {binders : List String} {before : List Statement}
    (h : Reflects scopes (⟨binders, before⟩ :: levels)) (s : Statement) :
    Reflects (s.scopesAfter scopes) (⟨binders, before ++ [s]⟩ :: levels) := by
  cases h with
  | cons hscope hrest =>
    cases s with
    | letVar pos name ty value =>
      apply Reflects.cons _ hrest
      intro other
      have hother := hscope other
      simp only [Level.bound, List.filterMap_append, List.mem_append] at hother ⊢
      rw [List.mem_cons, hother]
      simp [Statement.letName?, or_comm, or_left_comm]
    | _ =>
      apply Reflects.cons _ hrest
      intro other
      rw [hscope other]
      simp [Level.bound, Statement.letName?]

theorem binds_iff (h : Reflects scopes levels) (name : String) :
    scopes.binds name = true ↔ name ∈ levels.flatMap Level.bound := by
  induction h with
  | nil => simp [Scopes.binds]
  | cons hscope hrest ih =>
    have hbinds := hscope name
    simp only [Scopes.binds, List.any_cons, Bool.or_eq_true, List.contains_iff_mem,
      List.flatMap_cons, List.mem_append] at ih ⊢
    rw [ih, hbinds]

end Reflects

namespace Program

/-- The names that are known in all of the function that a site is in. -/
def namesAt (p : Program) (site : Site) : Names :=
  { p.names with own := site.ownStatics.map StaticDecl.name }

/-- The violations among some occurrences. -/
def violations (p : Program) (os : List Occurrence) : List DeclError :=
  os.filterMap fun o => o.violation? p

section

variable (p : Program)

@[simp] theorem violations_nil : p.violations [] = [] := rfl

@[simp] theorem violations_append (first second : List Occurrence) :
    p.violations (first ++ second) = p.violations first ++ p.violations second :=
  List.filterMap_append

theorem violations_singleton (o : Occurrence) : p.violations [o] = (o.violation? p).toList := by
  cases hviolation : o.violation? p <;> simp [violations, hviolation]

theorem violations_cons (o : Occurrence) (os : List Occurrence) :
    p.violations (o :: os) = p.violations [o] ++ p.violations os :=
  violations_append p [o] os

end

variable {p : Program} {site : Site} {scopes : Scopes}

theorem violations_flatMap {α : Type} (xs : List α) (f : α → List Occurrence) :
    p.violations (xs.flatMap f) = xs.flatMap fun x => p.violations (f x) :=
  List.filterMap_flatMap

/-! ### One name -/

theorem resolve_eq_meaning? (h : Reflects scopes site.levels) (name : String) :
    (p.namesAt site).resolve scopes name = p.meaning? site name := by
  have hvisible : scopes.binds name = true ↔ name ∈ site.visible := h.binds_iff name
  unfold Names.resolve meaning?
  simp only [hvisible, namesAt, names, Bool.or_eq_true, List.contains_iff_mem]

theorem referenceErrors_eq (h : Reflects scopes site.levels) (pos : Position) (name : String) :
    (p.namesAt site).referenceErrors scopes name pos =
      p.violations [site.occurrence (pos, .use name)] := by
  rw [violations_singleton, Names.referenceErrors, resolve_eq_meaning? h]
  cases hmeaning : p.meaning? site name <;>
    simp [Site.occurrence, Occurrence.violation?, hmeaning]

theorem assignErrors_eq (h : Reflects scopes site.levels) (pos : Position) (name : String) :
    (p.namesAt site).assignErrors scopes name pos =
      p.violations [site.occurrence (pos, .assign name)] := by
  rw [violations_singleton, Names.assignErrors, resolve_eq_meaning? h]
  cases hmeaning : p.meaning? site name with
  | none => simp [Site.occurrence, Occurrence.violation?, hmeaning]
  | some binding => cases binding <;> simp [Site.occurrence, Occurrence.violation?, hmeaning]

theorem callErrors_eq (site : Site) (pos : Position) (function : String) :
    (p.namesAt site).callErrors function pos =
      p.violations [site.occurrence (pos, .call function)] := by
  have hknown : (p.namesAt site).functions.contains function = true ↔
      function ∈ p.functions.map Function.name := List.contains_iff_mem
  rw [violations_singleton]
  simp only [Names.callErrors, hknown, Site.occurrence, Occurrence.violation?]
  split <;> rfl

theorem bindErrors_eq (h : Reflects scopes site.levels) (pos : Position) (name : String) :
    scopes.bindErrors name pos = p.violations [site.occurrence (pos, .bind name)] := by
  obtain ⟨function, levels⟩ := site
  rw [violations_singleton]
  cases h with
  | nil => rfl
  | cons hscope hrest =>
    simp only [Scopes.bindErrors, List.contains_iff_mem, hscope name]
    show _ = (if name ∈ Level.bound _ then _ else _ : Option DeclError).toList
    split <;> rfl

end Program

/-! ## Section 6: The names pass reports the violations -/

section Traversal

variable {p : Program} {site : Site} {scopes : Scopes}

mutual

theorem Expr.nameErrors_eq (h : Reflects scopes site.levels) : (e : Expr) →
    e.nameErrors (p.namesAt site) scopes = p.violations (e.mentions.map site.occurrence)
  | .literal _ _ => rfl
  | .ident pos name => Program.referenceErrors_eq h pos name
  | .index pos offset array => by
    rw [Expr.nameErrors, Expr.mentions, List.map_append, Program.violations_append,
      Expr.nameErrors_eq h offset, Program.referenceErrors_eq h]
    rfl
  | .binary _ _ left right => by
    rw [Expr.nameErrors, Expr.mentions, List.map_append, Program.violations_append,
      Expr.nameErrors_eq h left, Expr.nameErrors_eq h right]
  | .call pos function args => by
    rw [Expr.nameErrors, Expr.mentions, List.map_cons, Program.violations_cons,
      Expr.argsNameErrors_eq h args, Program.callErrors_eq]

theorem Expr.argsNameErrors_eq (h : Reflects scopes site.levels) : (es : List Expr) →
    Expr.argsNameErrors (p.namesAt site) scopes es =
      p.violations ((Expr.argsMentions es).map site.occurrence)
  | [] => rfl
  | e :: rest => by
    rw [Expr.argsNameErrors, Expr.argsMentions, List.map_append, Program.violations_append,
      Expr.nameErrors_eq h e, Expr.argsNameErrors_eq h rest]

end

theorem Place.nameErrors_eq (h : Reflects scopes site.levels) (pos : Position) (place : Place) :
    place.nameErrors (p.namesAt site) scopes pos =
      p.violations ((place.mentions pos).map site.occurrence) := by
  cases place with
  | var name => exact Program.assignErrors_eq h pos name
  | elem offset array =>
    rw [Place.nameErrors, Place.mentions, List.map_append, Program.violations_append,
      Expr.nameErrors_eq h offset, Program.assignErrors_eq h]
    rfl

namespace Statement

/-- Nothing is bound yet in the scope that a loop variable opens. -/
theorem violations_loopVariable (site : Site) (s : Statement) :
    p.violations (s.loopVariable?.toList.map (site.inside ⟨[], []⟩).occurrence) = [] := by
  cases s <;> rfl

theorem violations_occurrences (site : Site) (s : Statement) :
    p.violations (s.occurrences site) = p.violations (s.mentions.map site.occurrence) := by
  rw [occurrences, Program.violations_append, violations_loopVariable, List.append_nil]

/-- The faults of a statement: of its own names, then those in its blocks. -/
theorem nameErrors_eq (h : Reflects scopes site.levels) (s : Statement) :
    s.nameErrors (p.namesAt site) scopes = p.violations (s.occurrences site)
      ++ s.blocks.flatMap (fun b => blockNameErrors (p.namesAt site) (b.1 :: scopes) b.2) := by
  rw [violations_occurrences]
  cases s with
  | letVar pos name ty value =>
    simp only [nameErrors, mentions, blocks, List.map_append, Program.violations_append,
      Expr.nameErrors_eq h, Program.bindErrors_eq (p := p) h, List.flatMap_nil, List.append_nil,
      List.map_cons, List.map_nil]
  | assign pos op place value =>
    simp only [nameErrors, mentions, blocks, List.map_append, Program.violations_append,
      Expr.nameErrors_eq h, Place.nameErrors_eq h, List.flatMap_nil, List.append_nil]
  | ret pos value =>
    cases value <;> simp [nameErrors, mentions, blocks, Expr.nameErrors_eq h]
  | _ => simp [nameErrors, mentions, blocks, Expr.nameErrors_eq h]

/-- The faults of a block, if the faults of each of its statements are its violations. -/
theorem blockNameErrors_of {ss : List Statement}
    (hstatements : ∀ t ∈ ss, ∀ site scopes, Reflects scopes site.levels →
      t.nameErrors (p.namesAt site) scopes = p.violations (occurrencesAt (t.places site)))
    {outer : Site} {binders : List String} {before : List Statement}
    (h : Reflects scopes (⟨binders, before⟩ :: outer.levels)) :
    blockNameErrors (p.namesAt outer) scopes ss =
      p.violations (occurrencesAt (blockPlaces outer binders before ss)) := by
  induction ss generalizing scopes before with
  | nil => rfl
  | cons s rest ih =>
    have hs := hstatements s List.mem_cons_self (outer.inside ⟨binders, before⟩) scopes h
    have hrest := ih (fun t ht => hstatements t (List.mem_cons_of_mem _ ht)) (h.step s)
    rw [blockNameErrors, blockPlaces, occurrencesAt, List.flatMap_append,
      Program.violations_append, hrest]
    exact congrArg (· ++ _) hs

theorem nameErrors_of_places (s : Statement) :
    ∀ site scopes, Reflects scopes site.levels →
      s.nameErrors (p.namesAt site) scopes = p.violations (occurrencesAt (s.places site)) := by
  induction s using blockInduction with
  | hstep s ih =>
    intro site scopes h
    -- block by block, each with a scope of its own on top
    have hblocks : s.blocks.flatMap
          (fun b => blockNameErrors (p.namesAt site) (b.1 :: scopes) b.2) =
        p.violations (occurrencesAt (s.blocks.flatMap (fun b => blockPlaces site b.1 [] b.2))) := by
      rw [occurrencesAt, List.flatMap_assoc, Program.violations_flatMap, List.flatMap_def,
        List.flatMap_def]
      apply congrArg List.flatten
      apply List.map_congr_left
      intro b hb
      exact blockNameErrors_of (ih b hb) (h.enter b.1)
    rw [nameErrors_eq h, hblocks, ← Program.violations_append, places_eq]
    rfl

theorem blockNameErrors_eq (outer : Site) {binders : List String} (ss : List Statement)
    (h : Reflects scopes (⟨binders, []⟩ :: outer.levels)) :
    blockNameErrors (p.namesAt outer) scopes ss =
      p.violations (occurrencesAt (blockPlaces outer binders [] ss)) :=
  blockNameErrors_of (fun t _ => nameErrors_of_places t) h

end Statement

namespace Function

/-- Each parameter is held against those before it. -/
theorem paramErrors_eq (f : Function) (scope : List String) (before ps : List Param)
    (h : ∀ name, name ∈ scope ↔ name ∈ before.map Param.name) :
    paramErrors f.pos scope ps = p.violations (f.paramOccurrences before ps) := by
  induction ps generalizing scope before with
  | nil => rfl
  | cons q rest ih =>
    have hreflects : Reflects [scope] [⟨before.map Param.name, []⟩] := by
      apply Reflects.cons _ .nil
      intro name
      rw [h name]
      simp [Level.bound]
    have hq : Scopes.bindErrors [scope] q.name f.pos = p.violations
        [⟨⟨some f, [⟨before.map Param.name, []⟩]⟩, f.pos, .bind q.name⟩] :=
      Program.bindErrors_eq hreflects f.pos q.name
    have hrest := ih (q.name :: scope) (before ++ [q]) (by
      intro name
      rw [List.mem_cons, h name, List.map_append, List.mem_append, or_comm]
      simp)
    rw [paramErrors, paramOccurrences, Program.violations_cons, hrest]
    exact congrArg (· ++ _) hq

/-- The statics that a parameter would hide. -/
theorem hiddenStaticErrors_eq (f : Function) :
    f.hiddenStaticErrors =
      p.violations (f.bodyStatics.map (fun d => ⟨⟨some f, []⟩, d.pos, .static d.name⟩)) := by
  rw [hiddenStaticErrors, statics_eq_bodyStatics, Program.violations, List.filterMap_map]
  apply congrArg (fun fault => List.filterMap fault _)
  funext d
  have hparam : (f.params.any (fun q => q.name == d.name)) = true ↔
      d.name ∈ f.params.map Param.name := by
    simp
  simp only [Function.comp, Occurrence.violation?, Option.bind_some, hparam]

theorem nameErrors_eq (f : Function) : f.nameErrors p.names = p.violations f.occurrences := by
  have hnames : { p.names with own := f.statics.map StaticDecl.name } =
      p.namesAt ⟨some f, []⟩ := by
    rw [statics_eq_bodyStatics]
    simp [Program.namesAt, Site.ownStatics]
  have hscope : Reflects [f.paramScope] [⟨f.params.map Param.name, []⟩] := by
    apply Reflects.cons _ .nil
    intro name
    simp [paramScope, Level.bound]
  have hbody := Statement.blockNameErrors_eq (p := p) ⟨some f, []⟩ f.body hscope
  rw [nameErrors, occurrences, Program.violations_append, Program.violations_append,
    paramErrors_eq f [] [] f.params (fun name => Iff.rfl), hiddenStaticErrors_eq (p := p), hnames,
    hbody]

end Function

end Traversal

/-- The names pass reports just the violations of lexical scope: in source order, for every
    occurrence of a name in the program that is in violation, its violation. -/
theorem Program.nameErrors_eq_violations (p : Program) :
    p.nameErrors = p.occurrences.filterMap (fun o => o.violation? p) ∧
      ∀ o, o ∈ p.occurrences ↔ p.Occurs o := by
  have htop : Statement.blockNameErrors p.names [[]] p.statements =
      p.violations (Statement.occurrencesAt
        (Statement.blockPlaces ⟨none, []⟩ [] [] p.statements)) :=
    Statement.blockNameErrors_eq ⟨none, []⟩ p.statements (Reflects.nil.enter [])
  have hfunctions : p.functions.flatMap (fun f => f.nameErrors p.names) =
      p.violations (p.functions.flatMap Function.occurrences) := by
    rw [violations_flatMap]
    apply congrArg (fun faults => List.flatMap faults _)
    funext f
    exact f.nameErrors_eq
  constructor
  · show p.nameErrors = p.violations p.occurrences
    rw [nameErrors, occurrences, violations_append, hfunctions, htop]
  · intro o
    exact mem_occurrences_iff

-- A parameter is bound again by a `let` that uses an unknown name; the bound of a loop uses the
-- loop's variable, which the body binds again.
example :
    let f : Function := ⟨"f", [⟨"x", .uint .byte⟩], none,
      [.letVar ⟨2, 1⟩ "x" (.uint .byte) (.ident ⟨2, 9⟩ "y"),
       .forRange ⟨3, 1⟩ "i" (.uint .byte) (.ident ⟨3, 11⟩ "x") (.ident ⟨3, 14⟩ "i")
         [.letVar ⟨4, 1⟩ "i" (.uint .byte) (.ident ⟨4, 9⟩ "i")]], ⟨1, 1⟩⟩
    let p : Program := ⟨[.function f]⟩
    p.occurrences.filterMap (fun o => o.violation? p) =
      [⟨⟨2, 9⟩, .undefinedIdentifier "y"⟩, ⟨⟨2, 1⟩, .duplicateLocal "x"⟩,
       ⟨⟨3, 14⟩, .undefinedIdentifier "i"⟩, ⟨⟨4, 1⟩, .duplicateLocal "i"⟩] := by
  decide

end WordLang
