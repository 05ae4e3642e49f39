import Seedling.Parse.Parser
import Seedling.Proofs.Parse.Application
import Seedling.Proofs.Parse.Refinement
import Seedling.Proofs.Source.Lines
import Seedling.Proofs.Text.Utf8

/-!
Every tree that parsing gives is that of a derivation. Derivations read a grammar without its
priorities: any alternative may be taken, a repetition may end as soon as it has enough, and a
lookahead asks for nothing. They need no account of left recursion, since each seed is the tree
of a derivation and an application that meets it goes on from there.
-/

namespace Seedling

/-- A terminal stands in the input from `start` to `stop`, with the leaf that quotes it. -/
inductive Stands (g : Grammar) : Input → AtomId → Nat → Nat → ParseTree → Prop where
  | literal {t s id start stop} :
      g.atoms[id]? = some (.literal s) → start ≤ stop → stop ≤ (Text.bytes t).length →
        Source.slice (Text.bytes t) start stop = Text.bytes s →
        Stands g (.text t) id start stop (.leaf (g.label id) s (.ofOffset (Text.bytes t) start))
  | pattern {t pattern r id start stop} :
      g.atoms[id]? = some (.pattern pattern) → Regex.parse pattern = .ok r →
        start ≤ stop → stop ≤ (Text.bytes t).length →
        Source.slice (Text.bytes t) start stop ∈ r.language →
        Stands g (.text t) id start stop
          (.leaf (g.label id) (Text.decode (Source.slice (Text.bytes t) start stop))
            (.ofOffset (Text.bytes t) start))
  | token {ts name token id start} :
      g.atoms[id]? = some (.token name) → ts[start]? = some token → token.name = name →
        Stands g (.tokens ts) id start (start + 1) (.leaf name token.source token.position)

/-- Derivations with the trees that they leave: an atom, the items of a sequence, or a
repetition after `count` matches derives a piece of the input from a position on. -/
inductive Derives (g : Grammar) (input : Input) : Form → Nat → Piece → Prop where
  | terminal {id p stop leaf} :
      Stands g input id p stop leaf → Derives g input (.atom id) p (.single stop leaf)
  | rule {id r rule p x} :
      g.atoms[id]? = some (.rule r) → g.rules[r]? = some rule →
        Derives g input (.atom rule.body) p x →
        Derives g input (.atom id) p (.single x.stop (x.found rule.name).tree)
  | sequence {id atoms p x} :
      g.atoms[id]? = some (.sequence atoms) → Derives g input (.items atoms) p x →
        Derives g input (.atom id) p x
  | choice {id atoms a p x} :
      g.atoms[id]? = some (.choice atoms) → a ∈ atoms → Derives g input (.atom a) p x →
        Derives g input (.atom id) p x
  | repetition {id a min max p x} :
      g.atoms[id]? = some (.repetition a min max) → Derives g input (.run a min max 0) p x →
        Derives g input (.atom id) p x
  | lookahead {id a positive p} :
      g.atoms[id]? = some (.lookahead a positive) → Derives g input (.atom id) p (.nothing p)
  | discard {id a p x} :
      g.atoms[id]? = some (.discard a) → Derives g input (.atom a) p x →
        Derives g input (.atom id) p (.nothing x.stop)
  | splice {id a p x} :
      g.atoms[id]? = some (.splice a) → Derives g input (.atom a) p x →
        Derives g input (.atom id) p x.spliced
  | done {p} : Derives g input (.items []) p (.nothing p)
  | item {a rest p x y} :
      Derives g input (.atom a) p x → Derives g input (.items rest) x.stop y →
        Derives g input (.items (a :: rest)) p (x.append y)
  | enough {a min max count p} :
      min ≤ count ∨ isFull max count = true →
        Derives g input (.run a min max count) p (.nothing p)
  | more {a min max count p x y} :
      isFull max count = false → Derives g input (.atom a) p x →
        Derives g input (.run a min max (count + 1)) x.stop y →
        Derives g input (.run a min max count) p (x.append y)
  /-- A match of nothing stands for all that are missing. -/
  | empty {a min max count p x} :
      isFull max count = false → Derives g input (.atom a) p x → x.stop = p →
        Derives g input (.run a min max count) p x

def DerivesRule (g : Grammar) (input : Input) (r : RuleId) (p : Nat) (f : Found) : Prop :=
  ∃ rule, g.rules[r]? = some rule ∧
    ∃ x, Derives g input (.atom rule.body) p x ∧ f = x.found rule.name

section Terminals

variable {g : Grammar} {input : Input} {id : AtomId} {p stop : Nat} {leaf : ParseTree}

theorem Stands.bounds (h : Stands g input id p stop leaf) : p ≤ stop ∧ stop ≤ input.length := by
  cases h with
  | literal _ hle hlen => exact ⟨hle, hlen⟩
  | pattern _ _ hle hlen => exact ⟨hle, hlen⟩
  | token _ htoken =>
      exact ⟨Nat.le_succ p, (List.getElem?_eq_some_iff.1 htoken).1⟩

theorem slice_eq_word {bs word : List UInt8} (h : word <+: bs.drop p) :
    Source.slice bs p (p + word.length) = word := by
  rw [Source.slice, List.drop_take, Nat.add_sub_cancel_left]
  exact (List.prefix_iff_eq_take.1 h).symm

theorem Stands.of_matchTerminal (hg : g.WellFormed) (hp : p ≤ input.length)
    (h : (Subject.ofInput input).matchTerminal g id p = some (stop, leaf)) :
    Stands g input id p stop leaf := by
  obtain ⟨hle, hlen, -⟩ := hg.matchTerminal_stop hp h #[]
  rcases Subject.matchTerminal_eq_some h with ⟨t, s, rfl, hatom, hprefix, rfl, rfl⟩ |
    ⟨t, pattern, m, found, rfl, hatom, hm, hfound, rfl, rfl⟩ |
    ⟨ts, name, token, rfl, hatom, htoken, hname, rfl, rfl⟩
  · rw [Source.LineIndex.position_ofBytes]
    exact .literal hatom hle hlen (slice_eq_word hprefix)
  · obtain ⟨pattern', r, hatom', hparse, rfl⟩ := hg.matcher hm
    have hgreatest := r.longestMatch_isGreatest (show p ≤ (Text.bytes t).length from hp)
    rw [hfound] at hgreatest
    rw [Source.LineIndex.position_ofBytes]
    exact .pattern hatom' hparse hle hlen hgreatest.2.1.2.2
  · exact .token hatom htoken hname

end Terminals

/-! ### Meaning and derivation -/

/-- What it is for an expression under evaluation to derive a piece. -/
def Form.Derived (g : Grammar) (input : Input) (p : Nat) (x : Piece) : Form → Prop
  | .operator id op => g.atoms[id]? = some op → Derives g input (.atom id) p x
  | .alternatives atoms => ∃ a ∈ atoms, Derives g input (.atom a) p x
  | form => Derives g input form p x

section Derivations

variable {g : Grammar} {input : Input} {form : Form} {p : Nat}

theorem Derives.bounds {x : Piece} (h : Derives g input form p x) (hp : p ≤ input.length) :
    p ≤ x.stop ∧ x.stop ≤ input.length := by
  induction h with
  | terminal hstands => exact hstands.bounds
  | rule _ _ _ ih | sequence _ _ ih | choice _ _ _ ih | repetition _ _ ih | discard _ _ ih
  | splice _ _ ih => exact ih hp
  | lookahead | done | enough => exact ⟨Nat.le_refl _, hp⟩
  | item _ _ ihx ihy =>
      obtain ⟨hle, hlen⟩ := ihx hp
      obtain ⟨hle', hlen'⟩ := ihy hlen
      exact ⟨Nat.le_trans hle hle', hlen'⟩
  | more _ _ _ ihx ihy =>
      obtain ⟨hle, hlen⟩ := ihx hp
      obtain ⟨hle', hlen'⟩ := ihy hlen
      exact ⟨Nat.le_trans hle hle', hlen'⟩
  | empty _ _ _ ih => exact ih hp

/-- A match is derived if the answers that it rests on are. -/
theorem Meaning.derived (hg : g.WellFormed) {A : Answers} {o : Option Piece}
    (hA : ∀ r q f, q ≤ input.length → A r q (some f) → DerivesRule g input r q f)
    (h : Meaning g (.ofInput input) A form p o) :
    ∀ x, o = some x → p ≤ input.length → form.Derived g input p x := by
  have hterminal : ∀ {id op p} x, ((Subject.ofInput input).matchTerminal g id p).map
      (fun m => Piece.single m.1 m.2) = some x → p ≤ input.length →
      Form.Derived g input p x (.operator id op) := by
    intro id op p x hx hp _
    obtain ⟨⟨stop, leaf⟩, hm, rfl⟩ := Option.map_eq_some_iff.1 hx
    exact .terminal (.of_matchTerminal hg hp hm)
  induction h with
  | atom hatom _ ih => exact fun x hx hp => ih x hx hp hatom
  | rule ha =>
      intro x hx hp hatom
      obtain ⟨f, rfl, rfl⟩ := Option.map_eq_some_iff.1 hx
      obtain ⟨rule, hrule, y, hy, rfl⟩ := hA _ _ _ hp ha
      exact .rule hatom hrule hy
  | literal | pattern | token => exact hterminal
  | sequence _ ih => exact fun x hx hp hatom => .sequence hatom (ih x hx hp)
  | choice _ ih =>
      intro x hx hp hatom
      obtain ⟨a, ha, hxa⟩ := ih x hx hp
      exact .choice hatom ha hxa
  | repetition _ ih => exact fun x hx hp hatom => .repetition hatom (ih x hx hp)
  | lookahead =>
      intro x hx hp hatom
      split at hx
      · cases hx
        exact .lookahead hatom
      · contradiction
  | discard _ ih =>
      intro x hx hp hatom
      obtain ⟨y, rfl, rfl⟩ := Option.map_eq_some_iff.1 hx
      exact .discard hatom (ih y rfl hp)
  | splice _ ih =>
      intro x hx hp hatom
      obtain ⟨y, rfl, rfl⟩ := Option.map_eq_some_iff.1 hx
      exact .splice hatom (ih y rfl hp)
  | done =>
      intro x hx _
      cases hx
      exact .done
  | item _ _ ihx ih =>
      intro z hz hp
      obtain ⟨y, rfl, rfl⟩ := Option.map_eq_some_iff.1 hz
      have hx := ihx _ rfl hp
      exact .item hx (ih y rfl (Derives.bounds hx hp).2)
  | broken | exhausted | tooFew => exact fun x hx => nomatch hx
  | taken _ ih => exact fun x hx hp => ⟨_, List.mem_cons_self, ih x hx hp⟩
  | passed _ _ _ ih =>
      intro x hx hp
      obtain ⟨a, ha, hxa⟩ := ih x hx hp
      exact ⟨a, List.mem_cons_of_mem _ ha, hxa⟩
  | full hfull =>
      intro x hx _
      cases hx
      exact .enough (.inr hfull)
  | more hfull _ _ _ ihx ih =>
      intro z hz hp
      obtain ⟨y, rfl, rfl⟩ := Option.map_eq_some_iff.1 hz
      have hx := ihx _ rfl hp
      exact .more hfull hx (ih y rfl (Derives.bounds hx hp).2)
  | empty hfull _ hle ih =>
      intro x hx hp
      have hxa := ih x hx hp
      cases hx
      exact .empty hfull hxa (Nat.le_antisymm (Nat.le_of_not_lt hle) (Derives.bounds hxa hp).1)
  | enough _ _ hcount =>
      intro x hx _
      cases hx
      exact .enough (.inl (Nat.le_of_not_lt hcount))

end Derivations

/-! ### Parsing and derivation -/

section Readings

variable {g : Grammar} {input : Input}

def DerivedAt (g : Grammar) (input : Input) : Answers := fun r p o =>
  ∀ f, o = some f → p ≤ input.length → DerivesRule g input r p f

theorem DerivesRule.bounds {r : RuleId} {p : Nat} {f : Found} (h : DerivesRule g input r p f)
    (hp : p ≤ input.length) : p ≤ f.stop ∧ f.stop ≤ input.length := by
  obtain ⟨rule, -, x, hx, rfl⟩ := h
  exact hx.bounds hp

theorem derivedAt_bounded {A : Answers} (hA : ∀ r q o, A r q o → DerivedAt g input r q o) :
    A.Bounded input.length :=
  fun r q f hq ha => (hA r q _ ha f rfl hq).bounds hq

theorem Body.derivedAt (hg : g.WellFormed) {A : Answers} {r : RuleId} {p : Nat} {o : Option Found}
    (hA : ∀ r q o, A r q o → DerivedAt g input r q o) (h : Body g (.ofInput input) A r p o) :
    DerivedAt g input r p o := by
  obtain ⟨rule, hrule, x, hx, rfl⟩ := h
  intro f hf hp
  obtain ⟨y, rfl, rfl⟩ := Option.map_eq_some_iff.1 hf
  exact ⟨rule, hrule, y, hx.derived hg (fun r q f hq ha => hA r q _ ha f rfl hq) y rfl hp, rfl⟩

def derivedLedger {ω : Type} (g : Grammar) (input : Input) (Log : ω → Prop) : Ledger ω where
  Final := DerivedAt g input
  Seed := DerivedAt g input
  Met _ _ := True
  Log := Log

def derivedReading {ω : Type} (hg : g.WellFormed) (observer : Observer ω) (input : Input)
    (Log : ω → Prop)
    (hnoted : ∀ {active s event},
      Kept (derivedLedger g input Log) g (Subject.ofInput input).length active s →
      Log (observer.note active s.memo event s.log)) :
    Reading (⟨g, .ofInput input, observer⟩ : Task ω) where
  toLedger := derivedLedger g input Log
  May _ r p := r < g.rules.size ∧ p ≤ input.length
  inRange h := ⟨h.1, by rw [Subject.length_ofInput]; exact h.2⟩
  final_bounded := by
    rw [Subject.length_ofInput]
    exact derivedAt_bounded fun _ _ _ h => h
  seed_bounded := by
    rw [Subject.length_ofInput]
    exact derivedAt_bounded fun _ _ _ h => h
  start _ _ _ h := nomatch h
  met _ _ := trivial
  visits hmay _ hσ hv :=
    hv.inRange hg (derivedAt_bounded fun _ _ _ h => h.imp (fun _ _ _ h => h) hσ) hmay.1 hmay.2
  stage _ _ hσ hbody := hbody.derivedAt hg fun _ _ _ h => h.imp (fun _ _ _ h => h) hσ
  grown _ _ hσ hgrow := hgrow.invariant (fun _ h => nomatch h) fun _ _ hseed hbody =>
    hbody.derivedAt hg fun _ _ _ h => h.imp (fun _ _ _ h => h) (forall_mem_update hσ hseed)
  noted h _ := hnoted h

/-- What an application finds is derived. -/
theorem apply_nil_derived {ω : Type} (hg : g.WellFormed) {r : RuleId} {p : Nat}
    (hr : r < g.rules.size) (hp : p ≤ input.length) (observer : Observer ω)
    (room : Nat) (f : Failure) (log : ω) :
    Meets (fun _ => room ≤ g.rules.size * (input.length + 1)) (fun o _ => DerivedAt g input r p o)
      (Task.apply ⟨g, .ofInput input, observer⟩ room [] r p ⟨.empty, f, log⟩) := by
  let L := derivedReading hg observer input (fun _ => True) fun _ => trivial
  have hmeets := L.apply_nil_meets hg rfl room f (show L.Log log from trivial) ⟨hr, hp⟩
  rw [← Subject.length_ofInput]
  exact (hmeets.imp fun _ _ h => h.1).imp_abort fun _ h => h.1

end Readings

end Seedling
