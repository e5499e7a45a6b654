import Synopsis.Proofs.Help.Leaves
import Synopsis.Proofs.Help.Registry

/-! # Options follow their declarations

Wherever a line mentions an option, its usages give the option all names of its
declaration, and the value of its declaration. A declaration stands in an options
section, or is the first mention with a value.
-/

namespace Synopsis

namespace Help

variable {d d' : Declarations} {o o' k : OptionAtom} {name : String}

/-! ## Declarations -/

namespace Declarations

/-- The declaration of a name. -/
def named? (d : Declarations) (name : String) : Option OptionAtom :=
  d.find? { names := .singleton name }

/-- Lines only declare what no section declares, and each name once. -/
structure Proper (d : Declarations) : Prop where
  registry : d.registry.Proper
  inline : ∀ k ∈ d.inline, k.takesValue = true ∧
    ∃ name, OptionName name ∧ name ∉ d.registry.names ∧ k.names = .singleton name
  unique : ∀ k ∈ d.inline, ∀ k' ∈ d.inline, k.names = k'.names → k = k'
  branched : ∀ k ∈ d.inline, k.ValueBranched

theorem find?_of_names (h : o.names = .singleton name) : d.find? o = d.named? name := by
  rw [named?, find?, find?, h]

theorem named?_eq_some_iff (hd : d.Proper) : d.named? name = some k ↔
    name ∈ k.names.toList ∧ ((∃ repeats, (k, repeats) ∈ d.registry.options) ∨ k ∈ d.inline) := by
  have hfind : d.named? name = ((d.registry.find? name).map (·.1)).or
      (d.inline.find? fun known => !known.names.isDisjoint (.singleton name)) := by
    simp [named?, find?]
  have hshares (k : OptionAtom) :
      (!k.names.isDisjoint (.singleton name)) = true ↔ name ∈ k.names.toList := by
    rw [Bool.not_eq_true', ← Bool.not_eq_true, OrderedSet.isDisjoint_iff]
    simp
  rw [hfind]
  cases hr : d.registry.find? name with
  | some x =>
    obtain ⟨p, a⟩ := x
    obtain ⟨hp, hname⟩ := hd.registry.find?_eq_some_iff.mp hr
    simp only [Option.map_some, Option.some_or, Option.some.injEq]
    constructor
    · rintro rfl
      exact ⟨hname, .inl ⟨a, hp⟩⟩
    · rintro ⟨hk, ⟨b, hkb⟩ | hk'⟩
      · exact (Prod.mk.inj (hd.registry.option_unique hp hkb hname hk)).1
      · obtain ⟨-, n, -, hn, hnames⟩ := hd.inline k hk'
        rw [hnames, OrderedSet.toList_singleton, List.mem_singleton] at hk
        exact absurd (Registry.mem_names.mpr ⟨p, a, hp, hname⟩) (hk ▸ hn)
  | none =>
    have hnew := Registry.find?_eq_none_iff.mp hr
    simp only [Option.map_none, Option.none_or]
    constructor
    · intro hk
      have hshare := List.find?_some hk
      exact ⟨(hshares k).mp hshare, .inr (List.mem_of_find?_eq_some hk)⟩
    · rintro ⟨hk, ⟨b, hkb⟩ | hk'⟩
      · exact absurd (Registry.mem_names.mpr ⟨k, b, hkb, hk⟩) hnew
      · have hsome : (d.inline.find? fun known =>
            !known.names.isDisjoint (.singleton name)).isSome :=
          List.find?_isSome.mpr ⟨k, hk', (hshares k).mpr hk⟩
        obtain ⟨k', hfound⟩ := Option.isSome_iff_exists.mp hsome
        have hshare := List.find?_some hfound
        have hmem := List.mem_of_find?_eq_some hfound
        have hshare := (hshares k').mp hshare
        obtain ⟨-, n, -, -, hnames⟩ := hd.inline k hk'
        obtain ⟨-, n', -, -, hnames'⟩ := hd.inline k' hmem
        rw [hnames, OrderedSet.toList_singleton, List.mem_singleton] at hk
        rw [hnames', OrderedSet.toList_singleton, List.mem_singleton] at hshare
        rw [hfound, hd.unique k' hmem k hk' (by rw [hnames, hnames', ← hk, ← hshare])]

/-- An option that takes a value has a declaration. -/
def Covers (d : Declarations) (o : OptionAtom) : Prop :=
  o.takesValue = true → ∀ name ∈ o.names.toList, (d.named? name).isSome = true

theorem addInline_spec (hd : d.Proper) (ho : IsWritten o) (h : d.addInline o = .ok d') :
    d'.Proper ∧ d'.registry = d.registry ∧ (∀ k ∈ d.inline, k ∈ d'.inline) ∧ d'.Covers o := by
  obtain ⟨⟨name, hname, hnames⟩, hbranched⟩ := ho
  have covers {d : Declarations} {k : OptionAtom} (hd : d.Proper) (hk : name ∈ k.names.toList)
      (hmem : (∃ repeats, (k, repeats) ∈ d.registry.options) ∨ k ∈ d.inline) : d.Covers o := by
    intro _ n hn
    rw [hnames, OrderedSet.toList_singleton, List.mem_singleton] at hn
    rw [hn, (named?_eq_some_iff hd).mpr ⟨hk, hmem⟩]
    rfl
  simp only [addInline, hnames, OrderedSet.toList_singleton, List.any_cons, List.any_nil,
    Bool.or_false] at h
  split at h
  next hskip =>
    obtain rfl := Except.ok.inj h
    refine ⟨hd, rfl, fun _ hk => hk, ?_⟩
    intro hv
    simp only [hv, Bool.not_true, Bool.false_or] at hskip
    obtain ⟨⟨k, a⟩, hk⟩ := Option.isSome_iff_exists.mp hskip
    obtain ⟨hk, hkname⟩ := hd.registry.find?_eq_some_iff.mp hk
    exact covers hd hkname (.inl ⟨a, hk⟩) hv
  next hskip =>
    simp only [Bool.not_eq_true, Bool.or_eq_false_iff, Bool.not_eq_false',
      Option.isSome_eq_false_iff, Option.isNone_iff_eq_none, Registry.find?_eq_none_iff] at hskip
    split at h
    next k hk =>
      obtain ⟨-, -, h⟩ := Except.bind_eq_ok.mp h
      obtain rfl := Except.ok.inj h
      have hshare := List.find?_some hk
      rw [Bool.not_eq_true', ← Bool.not_eq_true, OrderedSet.isDisjoint_iff] at hshare
      have hkname : name ∈ k.names.toList := by simpa using hshare
      exact ⟨hd, rfl, fun _ hk => hk, covers hd hkname (.inr (List.mem_of_find?_eq_some hk))⟩
    next hk =>
      obtain rfl := Except.ok.inj h
      have hother (k : OptionAtom) (hkm : k ∈ d.inline) : k.names ≠ o.names := by
        intro he
        have := List.find?_eq_none.mp hk k hkm
        rw [Bool.not_eq_true', Bool.not_eq_false, OrderedSet.isDisjoint_iff, he, hnames] at this
        simp at this
      have hproper : Proper { d with inline := d.inline ++ [o] } := by
        refine ⟨hd.registry, ?_, ?_, ?_⟩
        · exact List.forall_mem_append.mpr ⟨hd.inline, List.forall_mem_singleton.mpr
            ⟨hskip.1, name, hname, hskip.2, hnames⟩⟩
        · intro k hk k' hk' he
          rw [List.mem_append, List.mem_singleton] at hk hk'
          rcases hk with hk | rfl <;> rcases hk' with hk' | rfl
          · exact hd.unique k hk k' hk' he
          · exact absurd he (hother k hk)
          · exact absurd he.symm (hother k' hk')
          · rfl
        · exact List.forall_mem_append.mpr
            ⟨hd.branched, List.forall_mem_singleton.mpr hbranched⟩
      refine ⟨hproper, rfl, fun k hk => List.mem_append_left _ hk, ?_⟩
      have hname : name ∈ o.names.toList := by simp [hnames]
      exact covers hproper hname (.inr (List.mem_append_right _ (List.mem_singleton_self o)))

theorem Covers.mono (hd : d.Proper) (hd' : d'.Proper) (hr : d'.registry = d.registry)
    (hi : ∀ k ∈ d.inline, k ∈ d'.inline) (h : d.Covers o) : d'.Covers o := by
  intro hv name hname
  obtain ⟨k, hk⟩ := Option.isSome_iff_exists.mp (h hv name hname)
  obtain ⟨hkname, hk⟩ := (named?_eq_some_iff hd).mp hk
  rw [(named?_eq_some_iff hd').mpr ⟨hkname, hk.imp (hr ▸ ·) (hi k)⟩]
  rfl

/-- When all options of some lines were looked at, each has its declaration. -/
theorem foldlM_addInline {os : List OptionAtom} (hd : d.Proper) (hos : ∀ o ∈ os, IsWritten o)
    (h : os.foldlM addInline d = .ok d') :
    d'.Proper ∧ d'.registry = d.registry ∧ (∀ k ∈ d.inline, k ∈ d'.inline) ∧
      ∀ o ∈ os, d'.Covers o := by
  induction os generalizing d with
  | nil =>
    obtain rfl := Except.ok.inj h
    exact ⟨hd, rfl, fun _ => id, nofun⟩
  | cons o os ih =>
    rw [List.foldlM_cons] at h
    obtain ⟨e, he, h⟩ := Except.bind_eq_ok.mp h
    obtain ⟨ho, hos⟩ := List.forall_mem_cons.mp hos
    obtain ⟨hep, her, hei, hec⟩ := addInline_spec hd ho he
    obtain ⟨hp, hr, hi, hc⟩ := ih hep hos h
    exact ⟨hp, hr.trans her, fun k hk => hi k (hei k hk),
      List.forall_mem_cons.mpr ⟨hec.mono hep hp hr hi, hc⟩⟩

/-! ## Completing options -/

/-- Names and value are those of the declaration of each name, except that a value of
arity zero may stand where none is declared. -/
structure Governs (d : Declarations) (o : OptionAtom) : Prop where
  optionName : ∀ name ∈ o.names.toList, OptionName name
  follows : ∀ name ∈ o.names.toList, match d.named? name with
    | some k => o.names = k.names ∧
        (o.value = k.value ∨ k.valueArity = Arity.flag ∧ o.valueArity = Arity.flag)
    | none => o.names = .singleton name ∧ o.value = none
  branched : o.ValueBranched

theorem optionName_of_named? (hd : d.Proper) (hk : d.named? name = some k) :
    ∀ n ∈ k.names.toList, OptionName n := by
  rcases ((named?_eq_some_iff hd).mp hk).2 with ⟨repeats, hk⟩ | hk
  · exact fun n hn => hd.registry.optionName n (Registry.mem_names.mpr ⟨k, repeats, hk, hn⟩)
  · obtain ⟨-, n, hn, -, hnames⟩ := hd.inline k hk
    simpa [hnames] using hn

theorem branched_of_named? (hd : d.Proper) (hk : d.named? name = some k) : k.ValueBranched := by
  rcases ((named?_eq_some_iff hd).mp hk).2 with ⟨repeats, hk⟩ | hk
  · exact hd.registry.branched _ hk
  · exact hd.branched k hk

theorem governs_of_named? (hd : d.Proper) (hk : d.named? name = some k) (hn : o.names = k.names)
    (hv : o.value = k.value ∨ k.valueArity = Arity.flag ∧ o.valueArity = Arity.flag)
    (hb : o.ValueBranched) : d.Governs o where
  optionName := hn ▸ optionName_of_named? hd hk
  follows n hmem := by
    have hk' : d.named? n = some k :=
      (named?_eq_some_iff hd).mpr ⟨hn ▸ hmem, ((named?_eq_some_iff hd).mp hk).2⟩
    rw [hk']
    exact ⟨hn, hv⟩
  branched := hb

theorem governs_registry (hd : d.Proper) {repeats : Bool}
    (ho : (o, repeats) ∈ d.registry.options) : d.Governs o where
  optionName n hn := hd.registry.optionName n (Registry.mem_names.mpr ⟨o, repeats, ho, hn⟩)
  follows name hname := by
    rw [(named?_eq_some_iff hd).mpr ⟨hname, .inl ⟨repeats, ho⟩⟩]
    exact ⟨rfl, .inl rfl⟩
  branched := hd.registry.branched _ ho

/-- Options that share a name have the same declaration. -/
theorem Governs.agree (ho : d.Governs o) (ho' : d.Governs o') (hname : name ∈ o.names.toList)
    (hname' : name ∈ o'.names.toList) : o.names = o'.names ∧
      (o.value = o'.value ∨ o.valueArity = Arity.flag ∧ o'.valueArity = Arity.flag) := by
  have h := ho.follows name hname
  have h' := ho'.follows name hname'
  have arity {k : OptionAtom} (hv : o.value = k.value) : o.valueArity = k.valueArity := by
    rw [OptionOf.valueArity, OptionOf.valueArity, hv]
  have arity' {k : OptionAtom} (hv : o'.value = k.value) : o'.valueArity = k.valueArity := by
    rw [OptionOf.valueArity, OptionOf.valueArity, hv]
  cases hk : d.named? name with
  | none =>
    rw [hk] at h h'
    exact ⟨h.1.trans h'.1.symm, .inl (h.2.trans h'.2.symm)⟩
  | some k =>
    rw [hk] at h h'
    refine ⟨h.1.trans h'.1.symm, ?_⟩
    rcases h.2 with hv | ⟨hk, hv⟩ <;> rcases h'.2 with hv' | ⟨hk', hv'⟩
    · exact .inl (hv.trans hv'.symm)
    · exact .inr ⟨(arity hv).trans hk', hv'⟩
    · exact .inr ⟨hv, (arity' hv').trans hk⟩
    · exact .inr ⟨hv, hv'⟩

theorem checkArity_eq_ok {declared written : OptionAtom} {x : Unit}
    (h : checkArity declared written = .ok x) : declared.valueArity = written.valueArity := by
  unfold checkArity at h
  split at h
  next he => exact he
  next => cases h

theorem governs_complete {next : Option Pattern} {used : Bool} (hd : d.Proper) (ho : IsWritten o)
    (hc : d.Covers o) (h : d.complete o next = .ok (o', used)) : d.Governs o' := by
  obtain ⟨⟨name, hhyphen, hnames⟩, hbranched⟩ := ho
  unfold complete at h
  rw [find?_of_names hnames] at h
  cases hk : d.named? name with
  | none =>
    simp only [hk] at h
    obtain ⟨rfl, -⟩ := Prod.mk.inj (Except.ok.inj h)
    have hv : o.value = none := by
      cases hv : o.value with
      | none => rfl
      | some v =>
        have := hc (by simp [OptionOf.takesValue, hv]) name (by simp [hnames])
        simp [hk] at this
    refine ⟨by simpa [hnames] using hhyphen, ?_, hbranched⟩
    intro n hn
    rw [hnames, OrderedSet.toList_singleton, List.mem_singleton] at hn
    rw [hn, hk]
    exact ⟨hnames, hv⟩
  | some k =>
    have hunion : o.names.union k.names = k.names := OrderedSet.union_eq_right (by
      simpa [hnames] using ((named?_eq_some_iff hd).mp hk).1)
    simp only [hk, hunion] at h
    -- The names are those of the declaration in each case; only the value differs.
    cases hkv : k.value with
    | none =>
      simp only [OptionOf.takesValue, hkv, Option.isSome_none, Bool.not_false, if_true] at h
      obtain ⟨x, hx, h⟩ := Except.bind_eq_ok.mp h
      obtain ⟨rfl, -⟩ := Prod.mk.inj (Except.ok.inj h)
      have harity := checkArity_eq_ok hx
      have hflag : k.valueArity = Arity.flag := by simp [OptionOf.valueArity, hkv]
      exact governs_of_named? hd hk rfl (.inr ⟨hflag, by rw [← harity, hflag]⟩) hbranched
    | some v =>
      simp only [OptionOf.takesValue, hkv, Option.isSome_some, Bool.not_true,
        Bool.false_eq_true, if_false] at h
      have hdeclared (o' : OptionAtom) (hn : o'.names = k.names) (hv : o'.value = some v) :
          d.Governs o' := by
        refine governs_of_named? hd hk hn (.inl (hv.trans hkv.symm)) fun w hw => ?_
        exact branched_of_named? hd hk w (hkv.trans (hv.symm.trans hw))
      split at h
      · obtain ⟨x, -, h⟩ := Except.bind_eq_ok.mp h
        obtain ⟨rfl, -⟩ := Prod.mk.inj (Except.ok.inj h)
        exact hdeclared _ rfl rfl
      · split at h
        · obtain ⟨x, -, h⟩ := Except.bind_eq_ok.mp h
          obtain ⟨rfl, -⟩ := Prod.mk.inj (Except.ok.inj h)
          exact hdeclared _ rfl rfl
        · obtain ⟨rfl, -⟩ := Prod.mk.inj (Except.ok.inj h)
          exact hdeclared _ rfl rfl

end Declarations

/-! ## Lines -/

/-- What completing makes of the leaves of a line. -/
def Declarations.Settled (d : Declarations) : Pattern → Prop
  | .option o => d.Governs o
  | q => Classed q

/-- A leaf of a line of which the declarations know. -/
def Declarations.Known (d : Declarations) : Pattern → Prop
  | .option o => IsWritten o ∧ d.Covers o
  | q => Classed q

open Pattern (Leafwise Heritable leafwise_group leafwise_either)

namespace Declarations

theorem Settled.classed {d : Declarations} {q : Pattern} (h : d.Settled q) : Classed q := by
  cases q with
  | option => trivial
  | _ => exact h

mutual

theorem settled_resolve (hd : d.Proper) : ∀ {p q : Pattern}, Leafwise d.Known p →
    d.resolve p = .ok q → Leafwise d.Settled q
  | .shortcut _, _, _, h => by
    obtain rfl := Except.ok.inj h
    exact List.forall_mem_singleton.mpr trivial
  | .command leaf, _, hp, h | .argument leaf, _, hp, h => by
    obtain rfl := Except.ok.inj h
    exact List.forall_mem_singleton.mpr (hp _ (List.mem_singleton_self _))
  | .option o, _, hp, h => by
    obtain ⟨⟨o', used⟩, ho, h⟩ := Except.bind_eq_ok.mp h
    obtain rfl := Except.ok.inj h
    obtain ⟨hw, hc⟩ := List.forall_mem_singleton.mp hp
    exact List.forall_mem_singleton.mpr (governs_complete hd hw hc ho)
  | .group kind ps repeats, _, hp, h => by
    obtain ⟨qs, hqs, h⟩ := Except.bind_eq_ok.mp h
    obtain rfl := Except.ok.inj h
    exact leafwise_group.mpr (settled_resolveAll hd (leafwise_group.mp hp) hqs)
  | .either ps, _, hp, h => by
    obtain ⟨qs, hqs, h⟩ := Except.bind_eq_ok.mp h
    obtain rfl := Except.ok.inj h
    exact leafwise_either.mpr (settled_resolveEach hd (leafwise_either.mp hp) hqs)

theorem settled_resolveAll (hd : d.Proper) : ∀ {ps qs : List Pattern} {used : Bool},
    (∀ p ∈ ps, Leafwise d.Known p) → d.resolveAll used ps = .ok qs →
    ∀ q ∈ qs, Leafwise d.Settled q
  | [], _, _, _, h => by
    obtain rfl := Except.ok.inj h
    exact nofun
  | p :: ps, _, used, hp, h => by
    obtain ⟨hp, hps⟩ := List.forall_mem_cons.mp hp
    unfold resolveAll at h
    split at h
    · exact settled_resolveAll hd hps h
    · split at h
      next o =>
        obtain ⟨⟨o', used'⟩, ho, h⟩ := Except.bind_eq_ok.mp h
        obtain ⟨qs, hqs, h⟩ := Except.bind_eq_ok.mp h
        obtain rfl := Except.ok.inj h
        obtain ⟨hw, hc⟩ := List.forall_mem_singleton.mp hp
        exact List.forall_mem_cons.mpr ⟨List.forall_mem_singleton.mpr (governs_complete hd hw hc ho),
          settled_resolveAll hd hps hqs⟩
      next =>
        obtain ⟨q, hq, h⟩ := Except.bind_eq_ok.mp h
        obtain ⟨qs, hqs, h⟩ := Except.bind_eq_ok.mp h
        obtain rfl := Except.ok.inj h
        exact List.forall_mem_cons.mpr ⟨settled_resolve hd hp hq, settled_resolveAll hd hps hqs⟩

theorem settled_resolveEach (hd : d.Proper) : ∀ {ps qs : List Pattern},
    (∀ p ∈ ps, Leafwise d.Known p) → d.resolveEach ps = .ok qs →
    ∀ q ∈ qs, Leafwise d.Settled q
  | [], _, _, h => by
    obtain rfl := Except.ok.inj h
    exact nofun
  | p :: ps, _, hp, h => by
    obtain ⟨hp, hps⟩ := List.forall_mem_cons.mp hp
    obtain ⟨q, hq, h⟩ := Except.bind_eq_ok.mp h
    obtain ⟨qs, hqs, h⟩ := Except.bind_eq_ok.mp h
    obtain rfl := Except.ok.inj h
    exact List.forall_mem_cons.mpr ⟨settled_resolve hd hp hq, settled_resolveEach hd hps hqs⟩

end

theorem heritable_settled (d : Declarations) : Heritable d.Settled where
  shortcut _ := trivial
  merged {names} h := by
    have hfold (names : List Names) (start : Names) (name : String)
        (hn : name ∈ (names.foldl OrderedSet.union start).toList) :
        name ∈ start.toList ∨ ∃ n ∈ names, name ∈ n.toList := by
      induction names generalizing start with
      | nil => exact .inl hn
      | cons n names ih =>
        rcases ih _ hn with hn | ⟨m, hm, hn⟩
        · exact (OrderedSet.mem_union.mp hn).imp_right fun hn => ⟨n, List.mem_cons_self, hn⟩
        · exact .inr ⟨m, List.mem_cons_of_mem _ hm, hn⟩
    intro name hname
    rcases hfold names {} name hname with hn | ⟨n, hn, hname⟩
    · cases hn
    · obtain ⟨leaf, rfl, hleaf⟩ := h n hn
      exact hleaf name hname

end Declarations

theorem allWritten_parseUsages {config : Config} {registry : Registry} {body : List Char}
    {lines : List Pattern} (h : parseUsages config registry body = .ok lines) :
    AllWritten lines := by
  intro line hline
  obtain ⟨text, -, h⟩ := Except.forall_of_mapM h line hline
  obtain ⟨lexemes, hlexemes, h⟩ := Except.bind_eq_ok.mp h
  obtain ⟨ps, hps, h⟩ := Except.bind_eq_ok.mp h
  obtain rfl := Except.ok.inj h
  exact allWritten_group (allWritten_parseLine (proper_usageWords hlexemes) hps) _
    (List.mem_singleton_self _)

/-- The options of all lines follow the declarations. -/
theorem Declarations.settled_of_mapM {registry : Registry} {lines resolved : List Pattern}
    {d : Declarations} (hr : registry.Proper) (hl : ∀ line ∈ lines, Leafwise Written line)
    (hd : (lines.flatMap Pattern.options).foldlM addInline { registry } = .ok d)
    (h : lines.mapM d.resolve = .ok resolved) :
    d.Proper ∧ d.registry = registry ∧ ∀ p ∈ resolved, Leafwise d.Settled p := by
  have hwritten : ∀ o ∈ lines.flatMap Pattern.options, IsWritten o := by
    intro o ho
    obtain ⟨line, hline, ho⟩ := List.mem_flatMap.mp ho
    exact hl line hline _ (Pattern.mem_options.mp ho)
  obtain ⟨hproper, hregistry, -, hcovers⟩ :=
    foldlM_addInline (d := { registry }) ⟨hr, nofun, nofun, nofun⟩ hwritten hd
  refine ⟨hproper, hregistry, fun p hp => ?_⟩
  obtain ⟨line, hline, hp⟩ := Except.forall_of_mapM h p hp
  refine settled_resolve hproper ?_ hp
  intro q hq
  cases q with
  | option o =>
    exact ⟨hl line hline _ hq,
      hcovers o (List.mem_flatMap.mpr ⟨line, hline, Pattern.mem_options.mpr hq⟩)⟩
  | command | argument => exact hl line hline _ hq
  | group | either | shortcut => trivial

/-- The options of all usages follow the declarations. -/
theorem settled_usagesOfLines {config : Config} {registry : Registry} {lines usages : List Pattern}
    (hr : registry.Proper) (hl : ∀ line ∈ lines, Leafwise Written line)
    (h : usagesOfLines config registry lines = .ok usages) :
    ∃ d : Declarations, d.Proper ∧ d.registry = registry ∧
      ∀ u ∈ usages, Leafwise d.Settled u := by
  obtain ⟨d, hd, h⟩ := Except.bind_eq_ok.mp h
  obtain ⟨resolved, hresolved, h⟩ := Except.bind_eq_ok.mp h
  obtain rfl := Except.ok.inj h
  obtain ⟨hproper, hregistry, hsettled⟩ := Declarations.settled_of_mapM hr hl hd hresolved
  refine ⟨d, hproper, hregistry, fun u hu => ?_⟩
  obtain ⟨p, hp, hu⟩ := List.mem_flatMap.mp hu
  exact d.heritable_settled.leafwise_usagesOfLine (hsettled p hp) u hu

end Help

end Synopsis
