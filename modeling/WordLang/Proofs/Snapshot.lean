import WordLang.Memory
import WordLang.Proofs.Slots
import WordLang.Proofs.Spelling
import WordLang.Proofs.StoreInvariant

/-! # The memory of a run shows every slot

    The memory puts global statics, constant tables and the statics of all
    functions into one map.  Nothing is lost by that: a static and a constant
    table of one name do not both have a slot, since only the first
    declaration of a name counts, and a qualified name has colons in it,
    which no name has, so that it is not the name of a static or a table and
    can be taken apart in one way only.

    All of this is about names, and a run changes no name: it holds in every
    state that a program reaches. -/

namespace WordLang

/-! ## Section 1: Taking qualified names apart -/

theorem IsName.colon_not_mem {name : String} (h : IsName name) : ':' ∉ name.toList := by
  obtain ⟨first, rest, heq, hfirst, hrest⟩ := h.word
  rw [heq]
  intro hcolon
  exact absurd (isWordPart_of_mem_word hfirst hrest ':' hcolon) (by decide)

namespace Store

theorem toList_qualified (function name : String) :
    (qualified function name).toList = function.toList ++ ':' :: ':' :: name.toList := by
  simp [qualified]

/-- A name without colons is not a qualified one. -/
theorem ne_qualified {name : String} (hname : IsName name) (function own : String) :
    name ≠ qualified function own := by
  rintro rfl
  have hcolon := hname.colon_not_mem
  rw [toList_qualified] at hcolon
  exact hcolon (List.mem_append_right _ List.mem_cons_self)

/-- Two names are all that a qualified name can be taken apart into. -/
theorem qualified_inj {function function' name name' : String} (hfunction : IsName function)
    (hname : IsName name) (h : qualified function name = qualified function' name') :
    function = function' ∧ name = name' := by
  have hlists := congrArg String.toList h
  rw [toList_qualified, toList_qualified] at hlists
  -- one of the two functions is at the front of the other
  rcases List.append_eq_append_iff.mp hlists with ⟨more, hmore, hrest⟩ | ⟨more, hmore, hrest⟩
  · rcases more with _ | ⟨first, _ | ⟨second, more⟩⟩
    · rw [List.append_nil] at hmore
      injection hrest with _ hrest
      injection hrest with _ hrest
      exact ⟨String.toList_injective hmore.symm, String.toList_injective hrest⟩
    · injection hrest with _ hrest
      injection hrest with _ hrest
      exact absurd (hrest ▸ List.mem_cons_self) hname.colon_not_mem
    · injection hrest with _ hrest
      injection hrest with _ hrest
      exact absurd (hrest ▸ List.mem_append_right more List.mem_cons_self) hname.colon_not_mem
  · rcases more with _ | ⟨first, more⟩
    · rw [List.append_nil] at hmore
      injection hrest with _ hrest
      injection hrest with _ hrest
      exact ⟨String.toList_injective hmore, String.toList_injective hrest.symm⟩
    · injection hrest with hfirst _
      subst hfirst
      refine absurd ?_ hfunction.colon_not_mem
      rw [hmore]
      exact List.mem_append_right _ List.mem_cons_self

end Store

/-! ## Section 2: A map of entries with distinct names -/

namespace NameMap

variable {α : Type}

theorem nodup_names (m : NameMap α) : (m.toList.map Prod.fst).Nodup := by
  apply List.pairwise_map.mpr
  apply m.sorted.imp
  intro a b hlt heq
  rw [heq] at hlt
  exact String.lt_irrefl _ hlt

theorem get?_foldl_insert {name : String} {v : α} {es : List (String × α)} (m : NameMap α)
    (h : (es.map Prod.fst).Nodup) :
    (es.foldl (fun m e => m.insert e.1 e.2) m).get? name = some v ↔
      (name, v) ∈ es ∨ (name ∉ es.map Prod.fst ∧ m.get? name = some v) := by
  induction es generalizing m with
  | nil => simp
  | cons e rest ih =>
    obtain ⟨key, value⟩ := e
    obtain ⟨hkey, hrest⟩ := List.nodup_cons.mp h
    rw [List.foldl_cons, ih _ hrest]
    by_cases hname : name = key
    · subst hname
      have habsent : (name, v) ∉ rest := fun hmem => hkey (List.mem_map.mpr ⟨_, hmem, rfl⟩)
      have hkey' : name ∉ rest.map Prod.fst := hkey
      simp [hkey', habsent, eq_comm]
    · simp [get?_insert_ne _ hname, hname]

theorem get?_ofList {name : String} {v : α} {es : List (String × α)}
    (h : (es.map Prod.fst).Nodup) : (ofList es).get? name = some v ↔ (name, v) ∈ es := by
  rw [ofList, get?_foldl_insert _ h]
  simp

/-- No entry is lost. -/
theorem toList_ofList_perm {es : List (String × α)} (h : (es.map Prod.fst).Nodup) :
    (ofList es).toList.Perm es := by
  have hperm : (ofList es).toList.Perm (es.map fun e => (e.1, e.2)) :=
    toList_perm h fun name v => by
      rw [get?_ofList h]
      simp
  simpa using hperm

end NameMap

/-! ## Section 3: The slots of a store -/

namespace Store

variable {s : Store}

theorem mem_localSlots_iff {full : String} {v : Value} :
    (full, v) ∈ s.localSlots ↔
      ∃ function name, full = qualified function name ∧ s.local? function name = some v := by
  unfold localSlots
  constructor
  · intro h
    obtain ⟨⟨function, slots⟩, hfunction, hslot⟩ := List.mem_flatMap.mp h
    obtain ⟨⟨name, v'⟩, hname, heq⟩ := List.mem_map.mp hslot
    cases heq
    refine ⟨function, name, rfl, ?_⟩
    rw [local?, NameMap.mem_toList_iff.mp hfunction]
    exact NameMap.mem_toList_iff.mp hname
  · rintro ⟨function, name, rfl, h⟩
    obtain ⟨slots, hslots, hv⟩ := Option.bind_eq_some_iff.mp h
    refine List.mem_flatMap.mpr ⟨(function, slots), NameMap.mem_toList_iff.mpr hslots, ?_⟩
    exact List.mem_map.mpr ⟨(name, v), NameMap.mem_toList_iff.mpr hv, rfl⟩

theorem mem_slots_iff {full : String} {v : Value} :
    (full, v) ∈ s.slots ↔ s.global? full = some v ∨ s.const? full = some v ∨
      ∃ function name, full = qualified function name ∧ s.local? function name = some v := by
  rw [slots, List.mem_append, List.mem_append, NameMap.mem_toList_iff, NameMap.mem_toList_iff,
    mem_localSlots_iff, or_assoc]
  rfl

theorem length_localSlots :
    s.localSlots.length = s.locals.toList.foldr (fun e n => e.2.size + n) 0 := by
  unfold localSlots
  induction s.locals.toList with
  | nil => rfl
  | cons e rest ih =>
    rw [List.flatMap_cons, List.length_append, ih, List.length_map]
    rfl

/-- The number of slots is that of the maps together. -/
theorem size_eq : s.size = s.globals.size + s.consts.size +
    s.locals.toList.foldr (fun e n => e.2.size + n) 0 := by
  rw [size, slots, List.length_append, List.length_append, length_localSlots]
  rfl

/-- All slots have names, and none is both a static and a constant table. -/
structure Separable (s : Store) : Prop where
  globals : ∀ {name v}, s.global? name = some v → IsName name
  consts  : ∀ {name v}, s.const? name = some v → IsName name
  locals  : ∀ {function name v}, s.local? function name = some v → IsName function ∧ IsName name
  apart   : ∀ {name v}, s.global? name = some v → s.const? name = none

namespace Separable

theorem nodup_localSlots (h : s.Separable) : (s.localSlots.map Prod.fst).Nodup := by
  have hnames : ∀ {function slots name v}, (function, slots) ∈ s.locals.toList →
      (name, v) ∈ slots.toList → IsName function ∧ IsName name := by
    intro function slots name v hfunction hname
    refine h.locals (v := v) ?_
    rw [local?, NameMap.mem_toList_iff.mp hfunction]
    exact NameMap.mem_toList_iff.mp hname
  apply List.pairwise_map.mpr
  refine List.pairwise_flatMap.mpr ⟨?_, ?_⟩
  -- the statics of one function have different names
  · rintro ⟨function, slots⟩ hfunction
    apply List.pairwise_map.mpr
    refine slots.sorted.imp_of_mem fun {a b} ha _ hlt heq => ?_
    obtain ⟨hown, hname⟩ := hnames (v := a.2) hfunction ha
    rw [(qualified_inj hown hname heq).2] at hlt
    exact String.lt_irrefl _ hlt
  -- the statics of two functions have different functions before the colons
  · refine s.locals.sorted.imp_of_mem fun {f g} hf _ hlt a ha b hb heq => ?_
    obtain ⟨⟨name, v⟩, hname, rfl⟩ := List.mem_map.mp ha
    obtain ⟨⟨name', v'⟩, hname', rfl⟩ := List.mem_map.mp hb
    obtain ⟨hown, hown'⟩ := hnames (v := v) hf hname
    rw [(qualified_inj hown hown' heq).1] at hlt
    exact String.lt_irrefl _ hlt

theorem nodup_slots (h : s.Separable) : (s.slots.map Prod.fst).Nodup := by
  rw [slots, List.map_append, List.map_append]
  refine List.nodup_append.mpr ⟨List.nodup_append.mpr ⟨s.globals.nodup_names,
    s.consts.nodup_names, ?_⟩, h.nodup_localSlots, ?_⟩
  · intro name hglobal name' hconst heq
    obtain ⟨⟨_, v⟩, hv, rfl⟩ := List.mem_map.mp hglobal
    obtain ⟨⟨_, v'⟩, hv', rfl⟩ := List.mem_map.mp hconst
    cases heq
    have hnone := h.apart (NameMap.mem_toList_iff.mp hv)
    rw [const?, NameMap.mem_toList_iff.mp hv'] at hnone
    cases hnone
  · intro name hplain full hlocal heq
    obtain ⟨⟨_, v'⟩, hv', rfl⟩ := List.mem_map.mp hlocal
    obtain ⟨function, own, rfl, -⟩ := mem_localSlots_iff.mp hv'
    refine ne_qualified ?_ function own heq
    rcases List.mem_append.mp hplain with hmem | hmem
    · obtain ⟨⟨_, v⟩, hv, rfl⟩ := List.mem_map.mp hmem
      exact h.globals (NameMap.mem_toList_iff.mp hv)
    · obtain ⟨⟨_, v⟩, hv, rfl⟩ := List.mem_map.mp hmem
      exact h.consts (NameMap.mem_toList_iff.mp hv)

end Separable

end Store

/-! ## Section 4: The memory of a store -/

/-- The memory of a store shows its slots: each under its own name with its value, nothing else, and
    in order of name. -/
structure Memory.Shows (mem : Memory) (s : Store) : Prop where
  distinct  : (s.slots.map Prod.fst).Nodup
  size      : mem.size = s.size
  count     : s.size = s.globals.size + s.consts.size +
    s.locals.toList.foldr (fun e n => e.2.size + n) 0
  globals   : ∀ {name v}, s.global? name = some v → mem.get? name = some v
  consts    : ∀ {name v}, s.const? name = some v → mem.get? name = some v
  qualified : ∀ function name, mem.get? (Store.qualified function name) = s.local? function name
  others    : ∀ {full}, s.global? full = none → s.const? full = none →
    (∀ function name, full = Store.qualified function name → s.local? function name = none) →
    mem.get? full = none
  ordered   : mem.toList.Pairwise fun a b => a.1 < b.1
  listed    : mem.toList.Perm s.slots
  shown     : toString mem = String.join (mem.toList.map fun e => s!"{e.1} = {e.2}\n")

theorem Store.Separable.get?_ofStore {s : Store} (h : s.Separable) {full : String} {v : Value} :
    (Memory.ofStore s).get? full = some v ↔ s.global? full = some v ∨ s.const? full = some v ∨
      ∃ function name, full = Store.qualified function name ∧ s.local? function name = some v := by
  rw [Memory.get?, Memory.ofStore, NameMap.get?_ofList h.nodup_slots, Store.mem_slots_iff]

theorem Store.Separable.get?_ofStore_qualified {s : Store} (h : s.Separable)
    (function name : String) :
    (Memory.ofStore s).get? (Store.qualified function name) = s.local? function name := by
  apply Option.ext
  intro v
  rw [h.get?_ofStore]
  constructor
  · rintro (hv | hv | ⟨function', name', heq, hv⟩)
    · exact absurd rfl (Store.ne_qualified (h.globals hv) function name)
    · exact absurd rfl (Store.ne_qualified (h.consts hv) function name)
    · -- what has a slot has a name, and so it is taken apart as it was put together
      obtain ⟨hfunction, hname⟩ := h.locals hv
      obtain ⟨rfl, rfl⟩ := Store.qualified_inj hfunction hname heq.symm
      exact hv
  · intro hv
    exact .inr (.inr ⟨function, name, rfl, hv⟩)

theorem Store.Separable.shows {s : Store} (h : s.Separable) : (Memory.ofStore s).Shows s where
  distinct := h.nodup_slots
  size := (NameMap.toList_ofList_perm h.nodup_slots).length_eq
  count := Store.size_eq
  globals hv := h.get?_ofStore.mpr (.inl hv)
  consts hv := h.get?_ofStore.mpr (.inr (.inl hv))
  qualified := h.get?_ofStore_qualified
  others {full} hglobal hconst hlocal := by
    rw [Option.eq_none_iff_forall_ne_some]
    intro v hv
    rcases h.get?_ofStore.mp hv with hv | hv | ⟨function, name, heq, hv⟩
    · rw [hglobal] at hv
      cases hv
    · rw [hconst] at hv
      cases hv
    · rw [hlocal function name heq] at hv
      cases hv
  ordered := (Memory.ofStore s).slots.sorted
  listed := NameMap.toList_ofList_perm h.nodup_slots
  shown := rfl

/-! ## Section 5: The names of a program -/

mutual

theorem Statement.WellFormed.isName_of_mem_statics {d : StaticDecl} {ctx : Parser.Context} :
    (s : Statement) → s.WellFormed ctx → d ∈ s.statics → IsName d.name
  | .static _, h, hd => by
    cases List.mem_singleton.mp hd
    exact h.2.1
  | .ifThen _ _ yes, h, hd => AllWellFormed.isName_of_mem_statics yes h.2 hd
  | .ifElse _ _ yes no, h, hd => by
    rcases List.mem_append.mp hd with hd | hd
    · exact AllWellFormed.isName_of_mem_statics yes h.2.1 hd
    · exact AllWellFormed.isName_of_mem_statics no h.2.2 hd
  | .forRange _ _ _ _ _ body, h, hd => AllWellFormed.isName_of_mem_statics body h.2.2.2.2 hd
  | .loop _ body, h, hd => AllWellFormed.isName_of_mem_statics body h hd

theorem Statement.AllWellFormed.isName_of_mem_statics {d : StaticDecl} {ctx : Parser.Context} :
    (ss : List Statement) → Statement.AllWellFormed ctx ss → d ∈ Statement.blockStatics ss →
      IsName d.name
  | s :: rest, h, hd => by
    rcases List.mem_append.mp hd with hd | hd
    · exact WellFormed.isName_of_mem_statics s h.1 hd
    · exact AllWellFormed.isName_of_mem_statics rest h.2 hd

end

namespace Program

/-- What a program declares has names that a text can have. -/
structure Named (p : Program) : Prop where
  functions : ∀ f ∈ p.functions, IsName f.name
  locals    : ∀ f ∈ p.functions, ∀ d ∈ f.bodyStatics, IsName d.name
  statics   : ∀ d ∈ p.statics, IsName d.name
  consts    : ∀ d ∈ p.consts, IsName d.name

theorem WellFormed.named {p : Program} (h : p.WellFormed) : p.Named where
  functions _ hf := (h _ (mem_functions_iff.mp hf)).1
  locals f hf d hd := by
    rw [← f.statics_eq_bodyStatics] at hd
    exact Statement.AllWellFormed.isName_of_mem_statics f.body
      (h _ (mem_functions_iff.mp hf)).2.2.2 hd
  statics _ hd := (h _ (mem_statics_iff.mp hd)).1
  consts _ hd := (h _ (mem_consts_iff.mp hd)).1

variable {p : Program}

/-- The first declaration of a name decides what the name is. -/
theorem Named.separable (h : p.Named) {s : Store} (hs : s.TypedAs p.items) : s.Separable where
  globals {name v} hv := by
    obtain ⟨d, hfind, -⟩ := hs.globals name v hv
    have hname : d.name = name := by simpa [Item.declares] using List.find?_some hfind
    exact hname ▸ h.statics d (mem_statics_iff.mpr (List.mem_of_find?_eq_some hfind))
  consts {name v} hv := by
    obtain ⟨d, hfind, -⟩ := hs.consts name v hv
    have hname : d.name = name := by simpa [Item.declares] using List.find?_some hfind
    exact hname ▸ h.consts d (mem_consts_iff.mpr (List.mem_of_find?_eq_some hfind))
  locals {function name v} hv := by
    obtain ⟨f, d, hf, hd, -⟩ := hs.locals function name v hv
    have hfunction := firstFunction?_eq_some_iff.mp hf
    have hstatic := find?_bodyStatics_eq_some_iff.mp hd
    have hnamed := h.locals f hfunction.mem d hstatic.mem
    exact ⟨hfunction.1 ▸ h.functions f hfunction.mem, hstatic.1 ▸ hnamed⟩
  apart {name v} hv := by
    obtain ⟨d, hfind, -⟩ := hs.globals name v hv
    rw [Option.eq_none_iff_forall_ne_some]
    intro u hu
    obtain ⟨d', hfind', -⟩ := hs.consts name u hu
    rw [hfind] at hfind'
    cases hfind'

/-- The memory loses and confuses no slot.  This holds of every program whose names can be read from
    a text, and so of every program that was read from one; between executions and in every state of
    one, whether or not the program passes the check. -/
theorem memory_shows_slots :
    (∀ source p, parse source = .ok p → p.Named) ∧
    ∀ p : Program, p.Named → ∀ config m,
      p.Reaches (p.env config) p.start m →
      (Memory.ofStore m.store).Shows m.store ∧
      ∀ fuel a b, (p.execution (p.env config) fuel m).changes a b →
        (Memory.ofStore a.store).Shows a.store ∧ (Memory.ofStore b.store).Shows b.store := by
  refine ⟨fun source p h => (wellFormed_of_parse h).named, fun p hnamed config m h => ?_⟩
  have hruns : ∀ fuel, Exec.Maintains (Machine.Intact p.declarations.1.store) (fun _ => True)
      (p.execution (p.env config) fuel) :=
    fun fuel => intact_runTopLevel _ _ fuel p.statements
  have hshows : ∀ {m : Machine}, m.Intact p.declarations.1.store →
      (Memory.ofStore m.store).Shows m.store :=
    fun hm => (hnamed.separable (typedAs_of_intact hm)).shows
  have hm : m.Intact p.declarations.1.store := h.maintained hruns p.intact_initial
  refine ⟨hshows hm, fun fuel a b hab => ?_⟩
  obtain ⟨ha, hb⟩ := (hruns fuel m hm).changes a b hab
  exact ⟨hshows ha, hshows hb⟩

/-- A static, and a function with one of the same name that it lowers below zero. -/
def sharedName : Program :=
  ⟨[.static ⟨"x", .uint .byte, ⟨1, 1⟩⟩,
    .function ⟨"f", [], none, [.static ⟨"x", .uint .byte, ⟨2, 8⟩⟩,
      .assign ⟨2, 20⟩ .sub (.var "x") (.literal ⟨2, 26⟩ 1)], ⟨2, 1⟩⟩,
    .statement (.expr ⟨3, 1⟩ (.call ⟨3, 1⟩ "f" []))]⟩

/-- Both statics are shown, with their own values. -/
theorem memory_shows_slots_sharedName :
    sharedName.Named ∧
    ∃ m, sharedName.Reaches (sharedName.env .default) sharedName.start m ∧
      m.store.global? "x" = some (.scalar .byte 0) ∧
      m.store.local? "f" "x" = some (.scalar .byte 255) ∧
      (Memory.ofStore m.store).Shows m.store := by
  have hletter : ∀ c, c = 'f' ∨ c = 'x' → IsName (String.singleton c) := by
    intro c hc
    refine ⟨⟨c, [], String.toList_singleton c, ?_, fun d hd => nomatch hd⟩, fun k => ?_, ?_⟩
    · rcases hc with rfl | rfl <;> decide
    · rcases hc with rfl | rfl <;> cases k <;> decide
    · rintro ⟨digits, hne, heq, -⟩
      rw [String.toList_singleton] at heq
      exact hne (List.cons.inj heq).2.symm
  have hf : IsName "f" := hletter 'f' (.inl rfl)
  have hx : IsName "x" := hletter 'x' (.inr rfl)
  have hnamed : sharedName.Named := by
    refine ⟨fun f hmem => ?_, fun f hmem d hd => ?_, fun d hmem => ?_, fun d hmem => nomatch hmem⟩
    · cases List.mem_singleton.mp hmem
      exact hf
    · cases List.mem_singleton.mp hmem
      cases List.mem_singleton.mp hd
      exact hx
    · cases List.mem_singleton.mp hmem
      exact hx
  have hreaches := Reaches.execute (p := sharedName) .start (show
    (sharedName.execute (sharedName.env .default) 9 sharedName.start).machine? = some _ from rfl)
  obtain ⟨-, hshows⟩ := memory_shows_slots
  exact ⟨hnamed, _, hreaches, rfl, rfl, (hshows sharedName hnamed .default _ hreaches).1⟩

end Program

end WordLang
