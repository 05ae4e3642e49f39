import Seedling.Proofs.Grammar.Algebra

/-!
Chains and what they are made into. An expression can be written without chains, with a series
of two in place of each `andThen` and each `orElse`. When both ways of writing a rule are added
to builders side by side, the tables agree up to how series are nested.
-/

namespace Seedling

namespace ParsingExpr

mutual

/-- The expression without chains: each link of one becomes a series of two. -/
def unchained : ParsingExpr → ParsingExpr
  | .text s => .text s
  | .pattern s => .pattern s
  | .token s => .token s
  | .ref s => .ref s
  | .andThen a b => .sequence [a.unchained, b.unchained]
  | .orElse a b => .choice [a.unchained, b.unchained]
  | .sequence items => .sequence (unchainedAll items)
  | .choice items => .choice (unchainedAll items)
  | .repetition a min max => .repetition a.unchained min max
  | .lookahead a positive => .lookahead a.unchained positive
  | .discard a => .discard a.unchained
  | .splice a => .splice a.unchained
  | .sealed a => .sealed a.unchained

def unchainedAll : List ParsingExpr → List ParsingExpr
  | [] => []
  | a :: rest => a.unchained :: unchainedAll rest

end

end ParsingExpr

namespace Builder

variable {target : String → RuleId} {b b' c c' d : Builder}

/-! ### Tables with references resolved -/

def resolved (target : String → RuleId) (b : Builder) : Array Atom :=
  b.pending.toList.foldl (fun atoms p => atoms.setIfInBounds p.1 (.rule (target p.2))) b.atoms

theorem size_foldl_set (pending : List (AtomId × String)) (atoms : Array Atom) :
    (pending.foldl (fun atoms p => atoms.setIfInBounds p.1 (.rule (target p.2))) atoms).size =
      atoms.size := by
  induction pending generalizing atoms with
  | nil => rfl
  | cons p pending ih => rw [List.foldl_cons, ih, Array.size_setIfInBounds]

@[simp] theorem size_resolved : (b.resolved target).size = b.atoms.size :=
  size_foldl_set b.pending.toList b.atoms

theorem foldl_set_push {pending : List (AtomId × String)} {atoms : Array Atom} (atom : Atom)
    (h : ∀ p ∈ pending, p.1 < atoms.size) :
    pending.foldl (fun atoms p => atoms.setIfInBounds p.1 (.rule (target p.2))) (atoms.push atom) =
      (pending.foldl (fun atoms p => atoms.setIfInBounds p.1 (.rule (target p.2))) atoms).push
        atom := by
  induction pending generalizing atoms with
  | nil => rfl
  | cons p pending ih =>
      rw [List.forall_mem_cons] at h
      have hpush : (atoms.push atom).setIfInBounds p.1 (.rule (target p.2)) =
          (atoms.setIfInBounds p.1 (.rule (target p.2))).push atom := by
        simp [Array.setIfInBounds, h.1, Nat.lt_succ_of_lt h.1, Array.set_push]
      rw [List.foldl_cons, List.foldl_cons, hpush, ih (by simpa using h.2)]

/-- A builder as the functions that add to it leave it. -/
structure Tidy (target : String → RuleId) (b : Builder) : Prop where
  pending_lt : ∀ p ∈ b.pending.toList, p.1 < b.atoms.size
  child_lt : ∀ {id : Nat} {atom : Atom}, (b.resolved target)[id]? = some atom →
    ∀ c ∈ atom.children, c < id
  ref : ∀ {id : Nat} {r : RuleId}, (b.resolved target)[id]? = some (.rule r) →
    ∃ p ∈ b.pending.toList, r = target p.2

theorem Tidy.resolved_addAtom (h : b.Tidy target) (atom : Atom) :
    (b.addAtom atom).2.resolved target = (b.resolved target).push atom :=
  foldl_set_push atom h.pending_lt

theorem Tidy.resolved_addRef (h : b.Tidy target) (name : String) :
    (b.addRef name).2.resolved target = (b.resolved target).push (.rule (target name)) := by
  have hsize := @size_resolved target b
  show (b.pending.push (b.atoms.size, name)).toList.foldl _ (b.atoms.push (.rule unresolved)) = _
  rw [Array.toList_push, List.foldl_append, foldl_set_push _ h.pending_lt, ← resolved,
    List.foldl_cons, List.foldl_nil, ← hsize]
  simp [Array.setIfInBounds, Array.set_push]

theorem getElem?_push_size (atoms : Array Atom) (atom : Atom) {n : Nat} (hn : n = atoms.size) :
    (atoms.push atom)[n]? = some atom := by
  simp [hn]

theorem getElem?_push_eq_some {atoms : Array Atom} {atom a : Atom} {id : Nat}
    (h : (atoms.push atom)[id]? = some a) : atoms[id]? = some a ∨ id = atoms.size ∧ a = atom := by
  rw [Array.getElem?_push] at h
  split at h
  · rename_i heq
    exact .inr ⟨heq, (Option.some.inj h).symm⟩
  · exact .inl h

theorem Tidy.addAtom (h : b.Tidy target) {atom : Atom} (hrule : ∀ r, atom ≠ .rule r)
    (hchildren : ∀ c ∈ atom.children, c < b.atoms.size) : (b.addAtom atom).2.Tidy target where
  pending_lt p hp := by
    show p.1 < (b.atoms.push atom).size
    rw [Array.size_push]
    exact Nat.lt_succ_of_lt (h.pending_lt p hp)
  child_lt hid := by
    rw [h.resolved_addAtom] at hid
    rcases getElem?_push_eq_some hid with hid | ⟨rfl, rfl⟩
    · exact h.child_lt hid
    · rwa [size_resolved]
  ref hid := by
    rw [h.resolved_addAtom] at hid
    rcases getElem?_push_eq_some hid with hid | ⟨-, heq⟩
    · exact h.ref hid
    · exact absurd heq.symm (hrule _)

theorem Tidy.addRef (h : b.Tidy target) (name : String) : (b.addRef name).2.Tidy target where
  pending_lt p hp := by
    have hsize : (b.addRef name).2.atoms.size = b.atoms.size + 1 := Array.size_push _
    have hpending : (b.addRef name).2.pending.toList = b.pending.toList ++ [(b.atoms.size, name)] :=
      Array.toList_push
    rw [hpending, List.mem_append, List.mem_singleton] at hp
    rcases hp with hp | rfl
    · exact hsize ▸ Nat.lt_succ_of_lt (h.pending_lt p hp)
    · exact hsize ▸ Nat.lt_succ_self _
  child_lt hid := by
    rw [h.resolved_addRef] at hid
    rcases getElem?_push_eq_some hid with hid | ⟨-, rfl⟩
    · exact h.child_lt hid
    · exact List.forall_mem_nil _
  ref hid := by
    have hpending : (b.addRef name).2.pending.toList = b.pending.toList ++ [(b.atoms.size, name)] :=
      Array.toList_push
    rw [h.resolved_addRef] at hid
    rw [hpending]
    rcases getElem?_push_eq_some hid with hid | ⟨-, heq⟩
    · obtain ⟨p, hp, hr⟩ := h.ref hid
      exact ⟨p, List.mem_append_left _ hp, hr⟩
    · exact ⟨_, List.mem_append_right _ (List.mem_singleton_self _), Atom.rule.inj heq⟩

/-- What is there stays there. -/
structure Grows (target : String → RuleId) (b c : Builder) : Prop where
  table : ∀ {id : Nat} {atom : Atom}, (b.resolved target)[id]? = some atom →
    (c.resolved target)[id]? = some atom
  rules : c.rules = b.rules
  start : c.start = b.start

theorem Grows.refl (b : Builder) : Grows target b b := ⟨fun h => h, rfl, rfl⟩

theorem Grows.trans (hbc : Grows target b c) (hcd : Grows target c d) : Grows target b d :=
  ⟨fun h => hcd.table (hbc.table h), hcd.rules.trans hbc.rules, hcd.start.trans hbc.start⟩

theorem getElem?_push_of_some {atoms : Array Atom} (atom : Atom) {a : Atom} {id : Nat}
    (h : atoms[id]? = some a) : (atoms.push atom)[id]? = some a := by
  have hid := (Array.getElem?_eq_some_iff.1 h).1
  rw [Array.getElem?_push, if_neg (Nat.ne_of_lt hid), h]

theorem Tidy.grows_addAtom (h : b.Tidy target) (atom : Atom) :
    Grows target b (b.addAtom atom).2 where
  table hid := by
    rw [h.resolved_addAtom]
    exact getElem?_push_of_some atom hid
  rules := rfl
  start := rfl

theorem Tidy.grows_addRef (h : b.Tidy target) (name : String) :
    Grows target b (b.addRef name).2 where
  table hid := by
    rw [h.resolved_addRef]
    exact getElem?_push_of_some _ hid
  rules := rfl
  start := rfl

/-! ### Builders side by side -/

/-- The terminals of a table, in order. -/
def terminals (atoms : List Atom) : List Atom := atoms.filter fun a => a.mode?.isSome

theorem terminals_push (atoms : Array Atom) (atom : Atom) :
    terminals (atoms.push atom).toList = terminals atoms.toList ++ terminals [atom] := by
  rw [Array.toList_push, terminals, List.filter_append]
  rfl

/-- Builders that have been given the same terminals and references. -/
structure Paired (target : String → RuleId) (b b' : Builder) : Prop where
  tidy : b.Tidy target
  tidy' : b'.Tidy target
  terminals : terminals (b.resolved target).toList = terminals (b'.resolved target).toList
  names : b.pending.toList.map Prod.snd = b'.pending.toList.map Prod.snd

/-- Atoms that are neither a terminal nor a reference. -/
def Composite (atom : Atom) : Prop := atom.mode? = none ∧ ∀ r, atom ≠ .rule r

theorem composite_series (k : Series) (atoms : List AtomId) : Composite (k.atom atoms) := by
  cases k <;> exact ⟨rfl, by simp [Series.atom]⟩

theorem composite_wrapper (w : Wrapper) (a : AtomId) : Composite (w.atom a) := by
  cases w <;> exact ⟨rfl, by simp [Wrapper.atom]⟩

namespace Paired

theorem symm (h : Paired target b b') : Paired target b' b :=
  ⟨h.tidy', h.tidy, h.terminals.symm, h.names.symm⟩

theorem addTerminal (h : Paired target b b') {atom : Atom} (hmode : atom.mode?.isSome = true) :
    Paired target (b.addAtom atom).2 (b'.addAtom atom).2 := by
  have hrule : ∀ r, atom ≠ .rule r := by
    rintro r rfl
    contradiction
  have hchildren : atom.children = [] := by
    cases atom with
    | literal | pattern | token => rfl
    | rule | sequence | choice | repetition | lookahead | discard | splice => contradiction
  refine ⟨h.tidy.addAtom hrule (by simp [hchildren]),
    h.tidy'.addAtom hrule (by simp [hchildren]), ?_, h.names⟩
  rw [h.tidy.resolved_addAtom, h.tidy'.resolved_addAtom, terminals_push,
    terminals_push, h.terminals]

theorem addRef (h : Paired target b b') (name : String) :
    Paired target (b.addRef name).2 (b'.addRef name).2 := by
  have hnames : ∀ b : Builder, (b.addRef name).2.pending.toList.map Prod.snd =
      b.pending.toList.map Prod.snd ++ [name] := by
    intro b
    show (b.pending.push (b.atoms.size, name)).toList.map Prod.snd = _
    simp
  refine ⟨h.tidy.addRef name, h.tidy'.addRef name, ?_, ?_⟩
  · rw [h.tidy.resolved_addRef, h.tidy'.resolved_addRef, terminals_push,
      terminals_push, h.terminals]
  · rw [hnames, hnames, h.names]

theorem addLeft (h : Paired target b b') {atom : Atom} (hatom : Composite atom)
    (hchildren : ∀ c ∈ atom.children, c < b.atoms.size) : Paired target (b.addAtom atom).2 b' := by
  refine ⟨h.tidy.addAtom hatom.2 hchildren, h.tidy', ?_, h.names⟩
  have hnone : Builder.terminals [atom] = [] := by simp [Builder.terminals, hatom.1]
  rw [h.tidy.resolved_addAtom, terminals_push, hnone, List.append_nil, h.terminals]

theorem addRight (h : Paired target b b') {atom : Atom} (hatom : Composite atom)
    (hchildren : ∀ c ∈ atom.children, c < b'.atoms.size) : Paired target b (b'.addAtom atom).2 :=
  (h.symm.addLeft hatom hchildren).symm

end Paired

/-- Two results of adding an expression, one of which may be spread out over a series of kind
`k`. -/
structure Abreast (target : String → RuleId) (k : Option Series) (b b' : Builder)
    (r r' : List AtomId × Builder) : Prop where
  flattens : ∃ id', r'.1 = [id'] ∧
    Flattens ((r.2.resolved target)[·]?) ((r'.2.resolved target)[·]?) k r.1 id'
  paired : Paired target r.2 r'.2
  grows : Grows target b r.2
  grows' : Grows target b' r'.2

structure ItemsAbreast (target : String → RuleId) (b b' : Builder) (r r' : List AtomId × Builder) :
    Prop where
  flattens : ∃ pairs : List (AtomId × AtomId), r.1 = pairs.map Prod.fst ∧
    r'.1 = pairs.map Prod.snd ∧
    ∀ p ∈ pairs, Flattens ((r.2.resolved target)[·]?) ((r'.2.resolved target)[·]?) none [p.1] p.2
  paired : Paired target r.2 r'.2
  grows : Grows target b r.2
  grows' : Grows target b' r'.2

theorem lt_of_isSome {id : Nat} (h : ((b.resolved target)[id]?).isSome = true) :
    id < b.atoms.size := by
  simpa using h

section Results

variable {r r' q q' : List AtomId × Builder} {k : Option Series}

theorem getElem?_addAtom (h : b.Tidy target) (atom : Atom) :
    ((b.addAtom atom).2.resolved target)[(b.addAtom atom).1]? = some atom := by
  rw [h.resolved_addAtom]
  exact getElem?_push_size _ _ size_resolved.symm

theorem Abreast.terminal (h : Paired target b b') {atom : Atom} (hmode : atom.mode?.isSome = true) :
    Abreast target k b b' (add.single (b.addAtom atom)) (add.single (b'.addAtom atom)) where
  flattens := by
    refine ⟨_, rfl, .leaf ?_ (getElem?_addAtom h.tidy atom) (getElem?_addAtom h.tidy' atom)⟩
    cases atom with
    | literal | pattern | token => rfl
    | rule | sequence | choice | repetition | lookahead | discard | splice => contradiction
  paired := h.addTerminal hmode
  grows := h.tidy.grows_addAtom atom
  grows' := h.tidy'.grows_addAtom atom

theorem Abreast.ref (h : Paired target b b') (name : String) :
    Abreast target k b b' (add.single (b.addRef name)) (add.single (b'.addRef name)) where
  flattens := by
    have hid : ∀ {b : Builder}, b.Tidy target →
        ((b.addRef name).2.resolved target)[b.atoms.size]? = some (.rule (target name)) := by
      intro b h
      rw [h.resolved_addRef]
      exact getElem?_push_size _ _ size_resolved.symm
    exact ⟨_, rfl, .leaf rfl (hid h.tidy) (hid h.tidy')⟩
  paired := h.addRef name
  grows := h.tidy.grows_addRef name
  grows' := h.tidy'.grows_addRef name

theorem addBoth (h : Paired target r.2 r'.2) (hgrows : Grows target b r.2)
    (hgrows' : Grows target b' r'.2) {atom atom' : Atom} (hatom : Composite atom)
    (hatom' : Composite atom') (hlt : ∀ c ∈ atom.children, c < r.2.atoms.size)
    (hlt' : ∀ c ∈ atom'.children, c < r'.2.atoms.size)
    (hflattens : ∀ {table table' : AtomId → Option Atom},
      (∀ id a, (r.2.resolved target)[id]? = some a → table id = some a) →
      (∀ id a, (r'.2.resolved target)[id]? = some a → table' id = some a) →
      table (r.2.addAtom atom).1 = some atom → table' (r'.2.addAtom atom').1 = some atom' →
      Flattens table table' k [(r.2.addAtom atom).1] (r'.2.addAtom atom').1) :
    Abreast target k b b' (add.single (r.2.addAtom atom)) (add.single (r'.2.addAtom atom')) where
  flattens := by
    refine ⟨_, rfl, hflattens ?_ ?_ (getElem?_addAtom h.tidy atom) (getElem?_addAtom h.tidy' atom')⟩
    · exact fun id a hid => (h.tidy.grows_addAtom atom).table hid
    · exact fun id a hid => (h.tidy'.grows_addAtom atom').table hid
  paired := (h.addLeft hatom hlt).addRight hatom' hlt'
  grows := hgrows.trans (h.tidy.grows_addAtom atom)
  grows' := hgrows'.trans (h.tidy'.grows_addAtom atom')

theorem Abreast.wrap (h : Abreast target none b b' r r') (w : Wrapper) :
    Abreast target k b b' (add.single (r.2.addAtom (w.atom (r.1.headD 0))))
      (add.single (r'.2.addAtom (w.atom (r'.1.headD 0)))) := by
  obtain ⟨id', hid', hflattens⟩ := h.flattens
  obtain ⟨id, hid⟩ := hflattens.eq_singleton
  rw [hid] at hflattens
  rw [hid, hid']
  have hsome := hflattens.isSome
  refine addBoth h.paired h.grows h.grows' (composite_wrapper w _) (composite_wrapper w _) ?_ ?_ ?_
  · rw [w.children_atom, List.forall_mem_singleton]
    exact lt_of_isSome (hsome.1 id (List.mem_singleton_self id))
  · rw [w.children_atom, List.forall_mem_singleton]
    exact lt_of_isSome hsome.2
  · intro table table' htable htable' hnew hnew'
    exact .wrap w (hflattens.mono htable htable') hnew hnew'

theorem ItemsAbreast.series (h : ItemsAbreast target b b' r r') (k' : Series) :
    Abreast target k b b' (add.single (r.2.addAtom (k'.atom r.1)))
      (add.single (r'.2.addAtom (k'.atom r'.1))) := by
  obtain ⟨pairs, hids, hids', hflattens⟩ := h.flattens
  rw [hids, hids']
  refine addBoth h.paired h.grows h.grows' (composite_series k' _) (composite_series k' _) ?_ ?_ ?_
  · rw [k'.children_atom, List.forall_mem_map]
    exact fun p hp => lt_of_isSome ((hflattens p hp).isSome.1 p.1 (List.mem_singleton_self p.1))
  · rw [k'.children_atom, List.forall_mem_map]
    exact fun p hp => lt_of_isSome (hflattens p hp).isSome.2
  · intro table table' htable htable' hnew hnew'
    exact .items k' pairs (fun p hp => (hflattens p hp).mono htable htable') hnew hnew'

section Chains

variable {k' : Series}

theorem Abreast.parts (hr : Abreast target (some k') b b' r r')
    (hq : Abreast target (some k') r.2 r'.2 q q') :
    ∃ x' y', r'.1 = [x'] ∧ q'.1 = [y'] ∧
      Flattens ((q.2.resolved target)[·]?) ((q'.2.resolved target)[·]?) (some k') r.1 x' ∧
      Flattens ((q.2.resolved target)[·]?) ((q'.2.resolved target)[·]?) (some k') q.1 y' := by
  obtain ⟨x', hx', hx⟩ := hr.flattens
  obtain ⟨y', hy', hy⟩ := hq.flattens
  exact ⟨x', y', hx', hy',
    hx.mono (fun _ _ h => hq.grows.table h) (fun _ _ h => hq.grows'.table h), hy⟩

theorem Abreast.chain (hr : Abreast target (some k') b b' r r')
    (hq : Abreast target (some k') r.2 r'.2 q q') :
    Abreast target (some k') b b' (r.1 ++ q.1, q.2)
      (add.single (q'.2.addAtom (k'.atom (r'.1 ++ q'.1)))) := by
  obtain ⟨x', y', hx', hy', hx, hy⟩ := hr.parts hq
  rw [hx', hy']
  have hlt : ∀ c ∈ (k'.atom [x', y']).children, c < q'.2.atoms.size := by
    rw [k'.children_atom]
    simp only [List.forall_mem_cons]
    exact ⟨lt_of_isSome hx.isSome.2, lt_of_isSome hy.isSome.2, List.forall_mem_nil _⟩
  have hgrows := hq.paired.tidy'.grows_addAtom (k'.atom [x', y'])
  refine ⟨⟨_, rfl, ?_⟩, hq.paired.addRight (composite_series k' _) hlt, hr.grows.trans hq.grows,
    (hr.grows'.trans hq.grows').trans hgrows⟩
  exact .chain k' (hx.mono (fun _ _ h => h) fun _ _ h => hgrows.table h)
    (hy.mono (fun _ _ h => h) fun _ _ h => hgrows.table h) (getElem?_addAtom hq.paired.tidy' _)

theorem Abreast.closed (hr : Abreast target (some k') b b' r r')
    (hq : Abreast target (some k') r.2 r'.2 q q') :
    Abreast target k b b' (add.single (q.2.addAtom (k'.atom (r.1 ++ q.1))))
      (add.single (q'.2.addAtom (k'.atom (r'.1 ++ q'.1)))) := by
  obtain ⟨x', y', hx', hy', hx, hy⟩ := hr.parts hq
  rw [hx', hy']
  refine addBoth hq.paired (hr.grows.trans hq.grows) (hr.grows'.trans hq.grows')
    (composite_series k' _)
    (composite_series k' _) ?_ ?_ ?_
  · rw [k'.children_atom]
    intro c hc
    rcases List.mem_append.1 hc with hc | hc
    · exact lt_of_isSome (hx.isSome.1 c hc)
    · exact lt_of_isSome (hy.isSome.1 c hc)
  · rw [k'.children_atom]
    simp only [List.cons_append, List.nil_append, List.forall_mem_cons]
    exact ⟨lt_of_isSome hx.isSome.2, lt_of_isSome hy.isSome.2, List.forall_mem_nil _⟩
  · intro table table' htable htable' hnew hnew'
    exact .closed k' (hx.mono htable htable') (hy.mono htable htable') hnew hnew'

end Chains

theorem ItemsAbreast.nil (h : Paired target b b') : ItemsAbreast target b b' ([], b) ([], b') :=
  ⟨⟨[], rfl, rfl, List.forall_mem_nil _⟩, h, .refl b, .refl b'⟩

theorem ItemsAbreast.cons (hr : Abreast target none b b' r r')
    (hq : ItemsAbreast target r.2 r'.2 q q') :
    ItemsAbreast target b b' (r.1 ++ q.1, q.2) (r'.1 ++ q'.1, q'.2) := by
  obtain ⟨id', hid', hflattens⟩ := hr.flattens
  obtain ⟨id, hid⟩ := hflattens.eq_singleton
  obtain ⟨pairs, hids, hids', hitems⟩ := hq.flattens
  refine ⟨⟨(id, id') :: pairs, by rw [hid, hids]; rfl, by rw [hid', hids']; rfl, ?_⟩, hq.paired,
    hr.grows.trans hq.grows, hr.grows'.trans hq.grows'⟩
  rw [hid] at hflattens
  rw [List.forall_mem_cons]
  exact ⟨hflattens.mono (fun _ _ h => hq.grows.table h) fun _ _ h => hq.grows'.table h, hitems⟩

end Results

def Context.series? : Context → Option Series
  | .alone => none
  | .inSequence => some .sequence
  | .inChoice => some .choice

theorem Abreast.of_none {r r' : List AtomId × Builder} {k : Option Series}
    (h : Abreast target none b b' r r') : Abreast target k b b' r r' := by
  obtain ⟨id', hid', hflattens⟩ := h.flattens
  exact ⟨⟨id', hid', hflattens.of_none⟩, h.paired, h.grows, h.grows'⟩

/-- A link of a chain of kind `k`, which continues the chain around it or stands by itself. -/
theorem Abreast.link {k : Series} {own context : Context} (hown : own.series? = some k)
    {r r' q q' : List AtomId × Builder} (hr : Abreast target own.series? b b' r r')
    (hq : Abreast target own.series? r.2 r'.2 q q') :
    Abreast target context.series? b b'
      (if context = own then (r.1 ++ q.1, q.2) else add.single (q.2.addAtom (k.atom (r.1 ++ q.1))))
      (add.single (q'.2.addAtom (k.atom (r'.1 ++ q'.1)))) := by
  rw [hown] at hr hq
  split
  · rename_i hcontext
    rw [hcontext, hown]
    exact hr.chain hq
  · exact hr.closed hq

theorem addItems_pair (x y : ParsingExpr) (b : Builder) :
    addItems [x, y] b =
      ((add .alone x b).1 ++ (add .alone y (add .alone x b).2).1,
        (add .alone y (add .alone x b).2).2) := by
  simp [addItems]

mutual

/-- An expression is added alongside its form without chains. -/
theorem add_abreast (x : ParsingExpr) (context : Context) {b b' : Builder}
    (h : Paired target b b') :
    Abreast target context.series? b b' (add context x b) (add .alone x.unchained b') := by
  cases x with
  | text s => exact .terminal h rfl
  | pattern s => exact .terminal h rfl
  | token s => exact .terminal h rfl
  | ref s => exact .ref h s
  | andThen x y =>
      have hx := add_abreast x .inSequence h
      have hlink := @Abreast.link _ _ _ _ .inSequence context rfl _ _ _ _ hx
        (add_abreast y .inSequence hx.paired)
      rw [ParsingExpr.unchained, add, add, addItems_pair]
      exact hlink
  | orElse x y =>
      have hx := add_abreast x .inChoice h
      have hlink := @Abreast.link _ _ _ _ .inChoice context rfl _ _ _ _ hx
        (add_abreast y .inChoice hx.paired)
      rw [ParsingExpr.unchained, add, add, addItems_pair]
      exact hlink
  | sequence items => exact (addItems_abreast items h).series .sequence
  | choice items => exact (addItems_abreast items h).series .choice
  | repetition x min max => exact (add_abreast x .alone h).wrap (.repetition min max)
  | lookahead x positive => exact (add_abreast x .alone h).wrap (.lookahead positive)
  | discard x => exact (add_abreast x .alone h).wrap .discard
  | splice x => exact (add_abreast x .alone h).wrap .splice
  | sealed x =>
      rw [ParsingExpr.unchained, add, add]
      exact (add_abreast x .alone h).of_none

theorem addItems_abreast (items : List ParsingExpr) {b b' : Builder} (h : Paired target b b') :
    ItemsAbreast target b b' (addItems items b) (addItems (ParsingExpr.unchainedAll items) b') := by
  cases items with
  | nil => exact .nil h
  | cons x rest =>
      have hx := add_abreast x .alone h
      exact .cons hx (addItems_abreast rest hx.paired)

end

/-! ### Rules -/

/-- Builders with the same rules, up to how series in them are nested. -/
structure Matching (target : String → RuleId) (b b' : Builder) : Prop extends Paired target b b',
    SameRules ((b.resolved target)[·]?) ((b'.resolved target)[·]?) b.rules b'.rules where
  start : b.start = b'.start

theorem Matching.rule_unchained (h : Matching target b b') (name : String) (x : ParsingExpr) :
    Matching target (b.rule name x) (b'.rule name x.unchained) := by
  have hadd := add_abreast x .alone h.toPaired
  obtain ⟨id', hid', hflattens⟩ := hadd.flattens
  obtain ⟨id, hid⟩ := hflattens.eq_singleton
  rw [hid] at hflattens
  have hrules : (b.rule name x).rules = b.rules.push ⟨name, id⟩ := by
    show (add .alone x b).2.rules.push ⟨name, (add .alone x b).1.headD 0⟩ = _
    rw [hadd.grows.rules, hid]
    rfl
  have hrules' : (b'.rule name x.unchained).rules = b'.rules.push ⟨name, id'⟩ := by
    show (add .alone x.unchained b').2.rules.push ⟨name, (add .alone x.unchained b').1.headD 0⟩ = _
    rw [hadd.grows'.rules, hid']
    rfl
  refine ⟨⟨⟨hadd.paired.tidy.pending_lt, hadd.paired.tidy.child_lt, hadd.paired.tidy.ref⟩,
    ⟨hadd.paired.tidy'.pending_lt, hadd.paired.tidy'.child_lt, hadd.paired.tidy'.ref⟩,
    hadd.paired.terminals, hadd.paired.names⟩, ⟨?_, ?_⟩,
    hadd.grows.start.trans (h.start.trans hadd.grows'.start.symm)⟩
  · rw [hrules, hrules', Array.size_push, Array.size_push, h.size]
  · intro r rule rule' hrule hrule'
    rw [hrules, Array.getElem?_push] at hrule
    rw [hrules', Array.getElem?_push, ← h.size] at hrule'
    split at hrule
    · rename_i heq
      rw [if_pos heq] at hrule'
      cases hrule
      cases hrule'
      exact ⟨rfl, hflattens⟩
    · rename_i hne
      rw [if_neg hne] at hrule'
      obtain ⟨hname, hbody⟩ := h.rule hrule hrule'
      exact ⟨hname, hbody.mono (fun _ _ hat => hadd.grows.table hat) fun _ _ hat =>
        hadd.grows'.table hat⟩

def ofRules (rules : List (String × ParsingExpr)) (start : Option String) : Builder :=
  { rules.foldl (fun b rule => b.rule rule.1 rule.2) empty with start }

def unchained (rules : List (String × ParsingExpr)) : List (String × ParsingExpr) :=
  rules.map fun rule => (rule.1, rule.2.unchained)

theorem matching_empty : Matching target empty empty where
  tidy := ⟨by simp [empty], by simp [resolved, empty], by simp [resolved, empty]⟩
  tidy' := ⟨by simp [empty], by simp [resolved, empty], by simp [resolved, empty]⟩
  terminals := rfl
  names := rfl
  start := rfl
  size := rfl
  rule := by simp [empty]

/-- The same rules with and without chains, one after the other. -/
theorem matching_ofRules (rules : List (String × ParsingExpr)) (start : Option String) :
    Matching target (ofRules rules start) (ofRules (unchained rules) start) := by
  have hfold : ∀ {b b'}, Matching target b b' →
      Matching target (rules.foldl (fun b rule => b.rule rule.1 rule.2) b)
        ((unchained rules).foldl (fun b rule => b.rule rule.1 rule.2) b') := by
    induction rules with
    | nil => exact fun h => h
    | cons rule rules ih => exact fun h => ih (h.rule_unchained rule.1 rule.2)
  have hrules := hfold (@matching_empty target)
  exact ⟨⟨⟨hrules.tidy.pending_lt, hrules.tidy.child_lt, hrules.tidy.ref⟩,
    ⟨hrules.tidy'.pending_lt, hrules.tidy'.child_lt, hrules.tidy'.ref⟩, hrules.terminals,
    hrules.names⟩, ⟨hrules.size, hrules.rule⟩, rfl⟩

end Builder

end Seedling
