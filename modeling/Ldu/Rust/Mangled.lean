import Ldu.Rust.Reading

/-!
# Demangling inverts the v0 mangling

The grammar of v0 symbols as trees (`Term`), with what is written for a tree (`Term.text`), what is
displayed for it (`Term.displayFrom`) and how deep its paths and types are nested (`Term.nesting`).
A path or a type that stood before may be written as a reference to where it stands
(`Term.Resolved`), so that a tree has many texts.

Each constructor has a rule that reads its text, given those of its parts (`Term.Readable`). A
symbol that begins with a tree is displayed as that tree says, down to the limit of the depth, and
not at all beyond it (`dsRustDemangle_mangled`).
-/

namespace Ldu

namespace Rust

open Attempt

/-! ### The grammar -/

/-- The sorts of phrases. A `pathRef` or `typeRef` is a path or a type that may be written as a
reference back to where it stood before. -/
inductive Phrase
  | path | pathRef | type | typeRef | constant | genericArg | fnSig | dynBounds
  | genericArgs | types | traits | bindings

/-- The syntax of v0 symbols. -/
inductive Term : Phrase → Type
  | crate (dis : Option Number) (id : Ident) : Term .path
  | nested (ns : Char) (base : Term .pathRef) (dis : Option Number) (id : Ident) : Term .path
  | inherentImpl (dis : Option Number) (parent : Term .pathRef) (self : Term .typeRef) : Term .path
  | traitImpl (dis : Option Number) (parent : Term .pathRef) (self : Term .typeRef)
      (trait : Term .pathRef) : Term .path
  | traitDef (self : Term .typeRef) (trait : Term .pathRef) : Term .path
  | generic (base : Term .pathRef) (args : Term .genericArgs) : Term .path
  | pathHere (p : Term .path) : Term .pathRef
  | pathBack (off : Number) (p : Term .pathRef) : Term .pathRef
  | basic (c : Char) (text : String) (h : basicType c = some text) : Term .type
  | array (elem : Term .typeRef) (len : Term .constant) : Term .type
  | slice (elem : Term .typeRef) : Term .type
  | tuple (elems : Term .types) : Term .type
  | ref (isMut : Bool) (lifetime : Option Number) (target : Term .typeRef) : Term .type
  | ptr (isMut : Bool) (target : Term .typeRef) : Term .type
  | fn (sig : Term .fnSig) : Term .type
  | dyn (bounds : Term .dynBounds) (lifetime : Number) : Term .type
  | named (p : Term .path) : Term .type
  | typeHere (t : Term .type) : Term .typeRef
  | typeBack (off : Number) (t : Term .typeRef) : Term .typeRef
  | value (t : Term .type) (neg : Bool) (digits : List Char) (ne : digits ≠ [])
      (isXDigit : digits.all isXDigit = true) : Term .constant
  | constBack (off : Number) (c : Term .constant) : Term .constant
  | lifetimeArg (n : Number) : Term .genericArg
  | constArg (c : Term .constant) : Term .genericArg
  | typeArg (t : Term .typeRef) : Term .genericArg
  | fnSig (binder : Option Number) (isUnsafe : Bool) (abi : Option (Option Ident))
      (args : Term .types) (ret : Term .typeRef) : Term .fnSig
  | dynBounds (binder : Option Number) (traits : Term .traits) : Term .dynBounds
  | noArgs : Term .genericArgs
  | consArg (arg : Term .genericArg) (args : Term .genericArgs) : Term .genericArgs
  | noTypes : Term .types
  | consType (t : Term .typeRef) (ts : Term .types) : Term .types
  | noTraits : Term .traits
  | consTrait (trait : Term .pathRef) (bindings : Term .bindings) (ts : Term .traits) : Term .traits
  | noBindings : Term .bindings
  | consBinding (id : Ident) (t : Term .typeRef) (bs : Term .bindings) : Term .bindings

def abiText : Option (Option Ident) → List Char
  | some (some id) => 'K' :: id.text
  | some none => ['K', 'C']
  | none => []

namespace Term

-- The equations are tagged so that they are there before the rules below, which all use them.
@[simp]
def text : {k : Phrase} → Term k → List Char
  | _, crate dis id => 'C' :: (taggedText 's' dis ++ id.text)
  | _, nested ns base dis id => 'N' :: ns :: (base.text ++ (taggedText 's' dis ++ id.text))
  | _, inherentImpl dis parent self => 'M' :: (taggedText 's' dis ++ (parent.text ++ self.text))
  | _, traitImpl dis parent self trait =>
    'X' :: (taggedText 's' dis ++ (parent.text ++ (self.text ++ trait.text)))
  | _, traitDef self trait => 'Y' :: (self.text ++ trait.text)
  | _, generic base args => 'I' :: (base.text ++ (args.text ++ ['E']))
  | _, pathHere p => p.text
  | _, pathBack off _ => 'B' :: off.text
  | _, basic c _ _ => [c]
  | _, array elem len => 'A' :: (elem.text ++ len.text)
  | _, slice elem => 'S' :: elem.text
  | _, tuple elems => 'T' :: (elems.text ++ ['E'])
  | _, ref isMut lifetime target =>
    (if isMut then 'Q' else 'R') :: (taggedText 'L' lifetime ++ target.text)
  | _, ptr isMut target => (if isMut then 'O' else 'P') :: target.text
  | _, fn sig => 'F' :: sig.text
  | _, dyn bounds lifetime => 'D' :: (bounds.text ++ ('L' :: lifetime.text))
  | _, named p => p.text
  | _, typeHere t => t.text
  | _, typeBack off _ => 'B' :: off.text
  | _, value t neg digits _ _ => t.text ++ ((if neg then ['n'] else []) ++ (digits ++ ['_']))
  | _, constBack off _ => 'B' :: off.text
  | _, lifetimeArg n => 'L' :: n.text
  | _, constArg c => 'K' :: c.text
  | _, typeArg t => t.text
  | _, fnSig binder isUnsafe abi args ret =>
    taggedText 'G' binder ++ ((if isUnsafe then ['U'] else []) ++
      (abiText abi ++ (args.text ++ ('E' :: ret.text))))
  | _, dynBounds binder traits => taggedText 'G' binder ++ (traits.text ++ ['E'])
  | _, noArgs => []
  | _, consArg arg args => arg.text ++ args.text
  | _, noTypes => []
  | _, consType t ts => t.text ++ ts.text
  | _, noTraits => []
  | _, consTrait trait bindings ts => trait.text ++ (bindings.text ++ ts.text)
  | _, noBindings => []
  | _, consBinding id t bs => 'p' :: (id.text ++ (t.text ++ bs.text))

/-- What is displayed for a term; a list has `sep` in front of every element but a `first` one. -/
def displayFrom : {k : Phrase} → Bool → Term k → String
  | _, _, crate _ id => id.display
  | _, _, nested _ base _ id =>
    if id.display = "" then base.displayFrom true else base.displayFrom true ++ "::" ++ id.display
  | _, _, inherentImpl _ _ self => "<" ++ self.displayFrom true ++ ">"
  | _, _, traitImpl _ _ self trait | _, _, traitDef self trait =>
    "<" ++ self.displayFrom true ++ " as " ++ trait.displayFrom true ++ ">"
  | _, _, generic base args => base.displayFrom true ++ "::<" ++ args.displayFrom true ++ ">"
  | _, _, pathHere p => p.displayFrom true
  | _, _, pathBack _ p => p.displayFrom true
  | _, _, basic _ text _ => text
  | _, _, array elem len => "[" ++ elem.displayFrom true ++ "; " ++ len.displayFrom true ++ "]"
  | _, _, slice elem => "[" ++ elem.displayFrom true ++ "]"
  | _, _, tuple elems => "(" ++ elems.displayFrom true ++ ")"
  | _, _, ref isMut _ target => (if isMut then "&mut " else "&") ++ target.displayFrom true
  | _, _, ptr isMut target => (if isMut then "*mut " else "*const ") ++ target.displayFrom true
  | _, _, fn sig => sig.displayFrom true
  | _, _, dyn bounds _ => bounds.displayFrom true
  | _, _, named p => p.displayFrom true
  | _, _, typeHere t => t.displayFrom true
  | _, _, typeBack _ t => t.displayFrom true
  | _, _, value _ neg digits _ _ => (if neg then "-" else "") ++ String.ofList digits
  | _, _, constBack _ c => c.displayFrom true
  | _, _, lifetimeArg _ => "'_"
  | _, _, constArg c => c.displayFrom true
  | _, _, typeArg t => t.displayFrom true
  | _, _, fnSig _ _ _ args ret =>
    "fn(" ++ args.displayFrom true ++ ") -> " ++ ret.displayFrom true
  | _, _, dynBounds _ traits => "dyn " ++ traits.displayFrom true
  | _, _, noArgs | _, _, noTypes | _, _, noTraits => ""
  | _, first, consArg arg args =>
    (if first then "" else ", ") ++ arg.displayFrom true ++ args.displayFrom false
  | _, first, consType t ts =>
    (if first then "" else ", ") ++ t.displayFrom true ++ ts.displayFrom false
  | _, first, consTrait trait _ ts =>
    (if first then "" else " + ") ++ trait.displayFrom true ++ ts.displayFrom false
  | _, _, noBindings => ""
  | _, _, consBinding _ _ bs => bs.displayFrom true

/-- How deep paths and types stand inside each other. -/
def nesting : {k : Phrase} → Term k → ℕ
  | _, crate _ _ => 1
  | _, nested _ base _ _ => base.nesting + 1
  | _, inherentImpl _ parent self => max parent.nesting self.nesting + 1
  | _, traitImpl _ parent self trait => max parent.nesting (max self.nesting trait.nesting) + 1
  | _, traitDef self trait => max self.nesting trait.nesting + 1
  | _, generic base args => max base.nesting args.nesting + 1
  | _, pathHere p => p.nesting
  | _, pathBack _ p => p.nesting + 1
  | _, basic _ _ _ => 1
  | _, array elem len => max elem.nesting len.nesting + 1
  | _, slice elem => elem.nesting + 1
  | _, tuple elems => elems.nesting + 1
  | _, ref _ _ target => target.nesting + 1
  | _, ptr _ target => target.nesting + 1
  | _, fn sig => sig.nesting + 1
  | _, dyn bounds _ => bounds.nesting + 1
  | _, named p => p.nesting + 1
  | _, typeHere t => t.nesting
  | _, typeBack _ t => t.nesting + 1
  | _, value t _ _ _ _ => t.nesting
  | _, constBack _ c => c.nesting
  | _, lifetimeArg _ => 0
  | _, constArg c => c.nesting
  | _, typeArg t => t.nesting
  | _, fnSig _ _ _ args ret => max args.nesting ret.nesting
  | _, dynBounds _ traits => traits.nesting
  | _, noArgs | _, noTypes | _, noTraits | _, noBindings => 0
  | _, consArg arg args => max arg.nesting args.nesting
  | _, consType t ts => max t.nesting ts.nesting
  | _, consTrait trait bindings ts => max (max trait.nesting bindings.nesting) ts.nesting
  | _, consBinding _ t bs => max t.nesting bs.nesting

variable (s : List Char)

/-- Every reference in a term that stands at a position leads to an earlier position, at which
what it refers to stands. -/
def Resolved : {k : Phrase} → ℕ → Term k → Prop
  | _, _, crate _ _ => True
  | _, p, nested _ base _ _ => base.Resolved (p + 1 + 1)
  | _, p, inherentImpl dis parent self =>
    parent.Resolved (p + 1 + (taggedText 's' dis).length) ∧
      self.Resolved (p + 1 + (taggedText 's' dis).length + parent.text.length)
  | _, p, traitImpl dis parent self trait =>
    parent.Resolved (p + 1 + (taggedText 's' dis).length) ∧
      self.Resolved (p + 1 + (taggedText 's' dis).length + parent.text.length) ∧
      trait.Resolved (p + 1 + (taggedText 's' dis).length + parent.text.length + self.text.length)
  | _, p, traitDef self trait =>
    self.Resolved (p + 1) ∧ trait.Resolved (p + 1 + self.text.length)
  | _, p, generic base args => base.Resolved (p + 1) ∧ args.Resolved (p + 1 + base.text.length)
  | _, p, pathHere t => t.Resolved p
  | _, p, pathBack off t =>
    off.value < p ∧ (∃ q, Spans s off.value t.text q ∧ charAt s q ≠ '_') ∧ t.Resolved off.value
  | _, _, basic _ _ _ => True
  | _, p, array elem len => elem.Resolved (p + 1) ∧ len.Resolved (p + 1 + elem.text.length)
  | _, p, slice elem => elem.Resolved (p + 1)
  | _, p, tuple elems => elems.Resolved (p + 1)
  | _, p, ref _ lifetime target => target.Resolved (p + 1 + (taggedText 'L' lifetime).length)
  | _, p, ptr _ target => target.Resolved (p + 1)
  | _, p, fn sig => sig.Resolved (p + 1)
  | _, p, dyn bounds _ => bounds.Resolved (p + 1)
  | _, p, named t => t.Resolved p
  | _, p, typeHere t => t.Resolved p
  | _, p, typeBack off t =>
    off.value < p ∧ (∃ q, Spans s off.value t.text q ∧ charAt s q ≠ '_') ∧ t.Resolved off.value
  | _, p, value t _ _ _ _ => t.Resolved p
  | _, p, constBack off c =>
    off.value < p ∧ (∃ q, Spans s off.value c.text q ∧ charAt s q ≠ '_') ∧ c.Resolved off.value
  | _, _, lifetimeArg _ => True
  | _, p, constArg c => c.Resolved (p + 1)
  | _, p, typeArg t => t.Resolved p
  | _, p, fnSig binder isUnsafe abi args ret =>
    args.Resolved (p + (taggedText 'G' binder).length + (if isUnsafe then ['U'] else []).length +
        (abiText abi).length) ∧
      ret.Resolved (p + (taggedText 'G' binder).length + (if isUnsafe then ['U'] else []).length +
        (abiText abi).length + args.text.length + 1)
  | _, p, dynBounds binder traits => traits.Resolved (p + (taggedText 'G' binder).length)
  | _, _, noArgs | _, _, noTypes | _, _, noTraits | _, _, noBindings => True
  | _, p, consArg arg args => arg.Resolved p ∧ args.Resolved (p + arg.text.length)
  | _, p, consType t ts => t.Resolved p ∧ ts.Resolved (p + t.text.length)
  | _, p, consTrait trait bindings ts =>
    trait.Resolved p ∧ bindings.Resolved (p + trait.text.length) ∧
      ts.Resolved (p + trait.text.length + bindings.text.length)
  | _, p, consBinding id t bs =>
    t.Resolved (p + 1 + id.text.length) ∧ bs.Resolved (p + 1 + id.text.length + t.text.length)

end Term

/-! ### Reading terms -/

/-- The function that reads a phrase. -/
def Phrase.call (first : Bool) : Phrase → Call
  | .path | .pathRef => .path
  | .type | .typeRef => .type
  | .constant => .constant
  | .genericArg => .genericArg
  | .fnSig => .fnSig
  | .dynBounds => .dynBounds
  | .genericArgs => .genericArgs first
  | .types => .types first
  | .traits => .traits first
  | .bindings => .bindings

/-- What is known of the first character of a phrase. -/
def Phrase.Starts : Phrase → Char → Prop
  | .path, c => c ∈ ['C', 'I', 'M', 'N', 'X', 'Y']
  | .pathRef, c => c ∈ ['B', 'C', 'I', 'M', 'N', 'X', 'Y']
  | .type, c => c ∉ ['B', 'E', 'G', 'K', 'L', 'U', '_']
  | .typeRef, c => c ∉ ['E', 'G', 'K', 'L', 'U', '_']
  | .constant, c | .genericArg, c => c ∉ ['E', '_']
  | _, _ => True

/-- What must be known of the character behind a phrase. -/
def Phrase.Follow : Phrase → Char → Prop
  | .genericArgs, c | .types, c | .traits, c => c = 'E'
  | .bindings, c => c ≠ 'p' ∧ c ≠ '_'
  | _, c => c ≠ '_'

section Terms

variable {s : List Char} {k : Phrase} {p d h q : ℕ}

theorem take_of_eq {c : Char} (hc : s[p]? = some c) :
    take s ⟨p, false, d⟩ = .ok (c, ⟨p + 1, false, d⟩) := by
  rw [take]
  dsimp only
  rw [hc]

theorem charAt_of_spans {c : Char} {cs : List Char} (ht : Spans s p (c :: cs) q) :
    charAt s p = c :=
  charAt_of_some (spans_cons.1 ht).1

theorem Term.starts (t : Term k) (ht : Spans s p t.text q) : k.Starts (charAt s p) := by
  have hpath : ∀ c ∈ ['C', 'I', 'M', 'N', 'X', 'Y'], c ∉ ['B', 'E', 'G', 'K', 'L', 'U', '_'] := by
    simp
  have hback : ∀ c ∈ ['E', 'G', 'K', 'L', 'U', '_'], c ∈ ['B', 'E', 'G', 'K', 'L', 'U', '_'] := by
    simp
  have hfew : ∀ c ∈ ['E', '_'], c ∈ ['E', 'G', 'K', 'L', 'U', '_'] := by simp
  have hbasic : ∀ c ∈ ['B', 'E', 'G', 'K', 'L', 'U', '_'], basicType c = none := by
    simp [basicType]
  induction t generalizing q with
  | basic c text hc =>
    rw [charAt_of_spans ht]
    intro hmem
    rw [hbasic c hmem] at hc
    cases hc
  | pathHere t ih => exact List.mem_cons_of_mem _ (ih ht)
  | named t ih => exact hpath _ (ih ht)
  | typeHere t ih => exact fun hmem ↦ ih ht (hback _ hmem)
  | typeArg t ih => exact fun hmem ↦ ih ht (hfew _ hmem)
  | value t neg digits ne hx ih =>
    obtain ⟨_, ht, -⟩ := spans_append.1 ht
    exact fun hmem ↦ ih ht (hback _ (hfew _ hmem))
  | ref isMut _ _ _ | ptr isMut _ _ =>
    rw [charAt_of_spans ht]
    cases isMut <;> simp [Phrase.Starts]
  | fnSig | dynBounds | noArgs | consArg | noTypes | consType | noTraits | consTrait | noBindings
  | consBinding => trivial
  | _ =>
    rw [charAt_of_spans ht]
    simp [Phrase.Starts]

/-- What is known of the first character of a list, or of the one behind it. -/
theorem Term.starts_types (t : Term .types) (ht : Spans s p t.text q) (hend : charAt s q = 'E') :
    charAt s p ∉ ['G', 'K', 'L', 'U', '_'] := by
  cases t with
  | noTypes =>
    rw [← spans_nil.1 ht, hend]
    decide
  | consType t ts =>
    obtain ⟨_, ht, -⟩ := spans_append.1 ht
    exact fun h ↦ t.starts ht (List.mem_cons_of_mem _ h)

theorem Term.starts_genericArgs (t : Term .genericArgs) (ht : Spans s p t.text q)
    (hend : charAt s q = 'E') : charAt s p ≠ '_' := by
  cases t with
  | noArgs =>
    rw [← spans_nil.1 ht, hend]
    decide
  | consArg arg args =>
    obtain ⟨_, ht, -⟩ := spans_append.1 ht
    exact fun h ↦ arg.starts ht (by simp [h])

theorem pathRef_ne : ∀ c ∈ ['B', 'C', 'I', 'M', 'N', 'X', 'Y'],
    c ∉ ['E', 'G', 'p', 's', '_'] := by
  simp

theorem Term.starts_traits (t : Term .traits) (ht : Spans s p t.text q) (hend : charAt s q = 'E') :
    charAt s p ∉ ['G', 'p', 's', '_'] := by
  cases t with
  | noTraits =>
    rw [← spans_nil.1 ht, hend]
    decide
  | consTrait trait bindings ts =>
    obtain ⟨_, ht, -⟩ := spans_append.1 ht
    exact fun h ↦ pathRef_ne _ (trait.starts ht) (List.mem_cons_of_mem _ h)

theorem Term.starts_bindings (t : Term .bindings) (ht : Spans s p t.text q)
    (hend : charAt s q ≠ '_') : charAt s p ≠ '_' := by
  cases t with
  | noBindings => rwa [← spans_nil.1 ht]
  | consBinding id t bs =>
    rw [charAt_of_spans ht]
    decide

theorem Term.ne_sep_pathRef (t : Term .pathRef) (ht : Spans s p t.text q) : charAt s p ≠ '_' :=
  fun h ↦ pathRef_ne _ (t.starts ht) (by simp [h])

theorem Term.ne_sep_typeRef (t : Term .typeRef) (ht : Spans s p t.text q) : charAt s p ≠ '_' :=
  fun h ↦ t.starts ht (by simp [h])

/-- The term is read wherever it stands. -/
def Term.Readable (s : List Char) (t : Term k) : Prop :=
  ∀ (p d q : ℕ) (first : Bool), Spans s p t.text q → t.Resolved s p → k.Follow (charAt s q) →
    Reads (fun n ↦ Rust.call .none s n (k.call first)) p d t.nesting q (t.displayFrom first)

namespace Term.Readable

open Term

/-! #### Paths -/

/-- A path, by what is read behind its first character. -/
theorem path_of_some {f : ℕ → Char → Parse String} {c : Char} {a : String}
    (hf : ∀ n, path .none s (call .none s n) = counted (take s >>= f n)) (hc : s[p]? = some c)
    (hx : Reads (fun n ↦ f n c) (p + 1) (d + 1) h q a) :
    Reads (fun n ↦ call .none s n .path) p d (h + 1) q a := by
  refine Reads.call ?_
  refine (Reads.counted (Reads.after (take_of_eq hc) hx)).of_run fun n ↦ ?_
  exact congrFun (hf n) _

/-- An identifier behind its disambiguator. -/
theorem tagged_ident {dis : Option Number} {id : Ident} {m : ℕ}
    (hdis : Spans s p (taggedText 's' dis) m) (hid : Spans s m id.text q) :
    tagged s 's' ⟨p, false, d⟩ = .ok ((), ⟨m, false, d⟩) ∧ charAt s p ≠ '_' := by
  obtain ⟨hdis, rfl⟩ := hdis
  refine ⟨tagged_of_text hdis (.inl (Ident.head_ne hid.1 (by decide) (by decide))), ?_⟩
  cases dis with
  | none => exact Ident.head_ne hid.1 (by decide) (by decide)
  | some n =>
    rw [charAt_of_some (cons_prefix_drop.1 hdis).1]
    decide

theorem crate (hlen : s.length < 2 ^ 64) (dis : Option Number) (id : Ident) :
    (crate dis id).Readable s := by
  intro p d q first ht hres hfollow
  simp only [text, spans_cons, spans_append] at ht
  obtain ⟨hc, _, hdis, hid, rfl⟩ := ht
  refine path_of_some (fun _ ↦ rfl) hc ?_
  refine Reads.after (tagged_ident hdis ⟨hid, rfl⟩).1 ?_
  exact reads_of_eq (ident_of_text hlen hid hfollow)

theorem nested (hlen : s.length < 2 ^ 64) (ns : Char) {base : Term .pathRef} (dis : Option Number)
    (id : Ident) (hbase : base.Readable s) : (nested ns base dis id).Readable s := by
  intro p d q first ht hres hfollow
  simp only [text, spans_cons, spans_append] at ht
  obtain ⟨hc, hns, _, htbase, _, hdis, hid, rfl⟩ := ht
  obtain ⟨htagged, hsep⟩ := tagged_ident (d := d + 1) hdis ⟨hid, rfl⟩
  refine path_of_some (fun _ ↦ rfl) hc ?_
  refine Reads.after (take_of_eq hns) ?_
  refine Reads.bind_flat (hbase _ _ _ true htbase hres hsep) (fun _ ↦
    (broken_tagged _).bind fun _ ↦ broken_ident.bind fun _ ↦ broken_pure _) ?_
  refine Reads.after htagged ?_
  refine Reads.after (ident_of_text hlen hid hfollow) ?_
  exact reads_pure _ rfl

/-- No path begins with an `s`, which would be taken for that of a disambiguator. -/
theorem tagged_pathRef {dis : Option Number} {t : Term .pathRef}
    (hdis : taggedText 's' dis <+: s.drop p)
    (ht : Spans s (p + (taggedText 's' dis).length) t.text q) :
    tagged s 's' ⟨p, false, d⟩ = .ok ((), ⟨p + (taggedText 's' dis).length, false, d⟩) :=
  tagged_of_text hdis (.inl fun h ↦ pathRef_ne _ (t.starts ht) (by simp [h]))

theorem inherentImpl (dis : Option Number) {parent : Term .pathRef} {self : Term .typeRef}
    (hparent : parent.Readable s) (hself : self.Readable s) :
    (inherentImpl dis parent self).Readable s := by
  intro p d q first ht hres hfollow
  simp only [text, spans_cons, spans_append] at ht
  obtain ⟨hc, _, ⟨hdis, rfl⟩, _, ⟨htparent, rfl⟩, htself⟩ := ht
  refine path_of_some (fun _ ↦ rfl) hc ?_
  refine Reads.after (tagged_pathRef hdis ⟨htparent, rfl⟩) ?_
  refine Reads.bind (hparent _ _ _ true ⟨htparent, rfl⟩ hres.1 (self.ne_sep_typeRef htself))
    (fun _ ↦ broken_type.bind fun _ ↦ broken_pure _) ?_
  exact Reads.map (hself _ _ _ true htself hres.2 hfollow)

theorem traitImpl (dis : Option Number) {parent : Term .pathRef} {self : Term .typeRef}
    {trait : Term .pathRef} (hparent : parent.Readable s) (hself : self.Readable s)
    (htrait : trait.Readable s) : (traitImpl dis parent self trait).Readable s := by
  intro p d q first ht hres hfollow
  simp only [text, spans_cons, spans_append] at ht
  obtain ⟨hc, _, ⟨hdis, rfl⟩, _, ⟨htparent, rfl⟩, _, ⟨htself, rfl⟩, httrait⟩ := ht
  refine path_of_some (fun _ ↦ rfl) hc ?_
  refine Reads.after (tagged_pathRef hdis ⟨htparent, rfl⟩) ?_
  refine Reads.bind (hparent _ _ _ true ⟨htparent, rfl⟩ hres.1
    (self.ne_sep_typeRef ⟨htself, rfl⟩)) (fun _ ↦ broken_type.bind fun _ ↦ broken_path.bind fun _ ↦
      broken_pure _) ?_
  refine Reads.bind (hself _ _ _ true ⟨htself, rfl⟩ hres.2.1 (trait.ne_sep_pathRef httrait))
    (fun _ ↦ broken_path.bind fun _ ↦ broken_pure _) ?_
  exact Reads.map (htrait _ _ _ true httrait hres.2.2 hfollow)

theorem traitDef {self : Term .typeRef} {trait : Term .pathRef} (hself : self.Readable s)
    (htrait : trait.Readable s) : (traitDef self trait).Readable s := by
  intro p d q first ht hres hfollow
  simp only [text, spans_cons, spans_append] at ht
  obtain ⟨hc, _, ⟨htself, rfl⟩, httrait⟩ := ht
  refine path_of_some (fun _ ↦ rfl) hc ?_
  refine Reads.bind (hself _ _ _ true ⟨htself, rfl⟩ hres.1 (trait.ne_sep_pathRef httrait))
    (fun _ ↦ broken_path.bind fun _ ↦ broken_pure _) ?_
  exact Reads.map (htrait _ _ _ true httrait hres.2 hfollow)

theorem generic {base : Term .pathRef} {args : Term .genericArgs} (hbase : base.Readable s)
    (hargs : args.Readable s) : (generic base args).Readable s := by
  intro p d q first ht hres hfollow
  simp only [text, spans_cons, spans_append, spans_nil] at ht
  obtain ⟨hc, _, ⟨htbase, rfl⟩, _, ⟨htargs, rfl⟩, hE, rfl⟩ := ht
  have hE := charAt_of_some hE
  refine path_of_some (fun _ ↦ rfl) hc ?_
  refine Reads.bind (hbase _ _ _ true ⟨htbase, rfl⟩ hres.1
    (args.starts_genericArgs ⟨htargs, rfl⟩ hE)) (fun _ ↦ (broken_list true).1.bind fun _ ↦
      (broken_eat _).bind fun _ ↦ broken_pure _) ?_
  refine Reads.bind_flat (hargs _ _ _ true ⟨htargs, rfl⟩ hres.2 hE)
    (fun _ ↦ (broken_eat _).bind fun _ ↦ broken_pure _) ?_
  refine Reads.after (eat_of_eq hE) ?_
  exact reads_pure _ rfl

theorem pathHere {t : Term .path} (ht : t.Readable s) : (pathHere t).Readable s :=
  fun p d q _ ↦ ht p d q true

/-- A reference, behind its first character. -/
theorem reads_back (hlen : s.length < 2 ^ 64) {off : Number} {t : Term k} {c : Char} {m : ℕ}
    (ht : t.Readable s) (hc : s[p]? = some c) (hoff : Spans s (p + 1) off.text q)
    (hlt : off.value < p) (hthere : Spans s off.value t.text m) (hres : t.Resolved s off.value)
    (hend : k.Follow (charAt s m)) :
    Reads (fun n ↦ backref s (call .none s n (k.call true))) (p + 1) d t.nesting q
      (t.displayFrom true) := by
  obtain ⟨hoff, rfl⟩ := hoff
  have hp := (List.getElem?_eq_some_iff.1 hc).1
  exact Reads.backref hlen hp hoff (Nat.lt_succ_of_lt hlt) (ht _ _ _ true hthere hres hend)

theorem pathBack (hlen : s.length < 2 ^ 64) (off : Number) {t : Term .pathRef}
    (ht : t.Readable s) : (pathBack off t).Readable s := by
  intro p d q first htext hres _
  obtain ⟨hlt, ⟨_, hthere, hend⟩, hres⟩ := hres
  obtain ⟨hc, hoff⟩ := spans_cons.1 htext
  refine path_of_some (fun _ ↦ rfl) hc ?_
  exact reads_back hlen ht hc hoff hlt hthere hres hend

/-! #### Types -/

/-- A type that is no basic one. -/
theorem compound {c : Char} {a : String} (hc : charAt s p = c) (hbasic : basicType c = none)
    (hx : Reads (fun n ↦ compoundType s (call .none s n) c) p (d + 1) h q a) :
    Reads (fun n ↦ call .none s n .type) p d (h + 1) q a := by
  refine Reads.call ?_
  refine Reads.counted ?_
  refine Reads.after (peek_of_eq hc) ?_
  simp only [hbasic]
  exact hx

theorem advance_eq : advance ⟨p, false, d⟩ = .ok ((), ⟨p + 1, false, d⟩) := rfl

theorem basic (c : Char) (out : String) (hc : basicType c = some out) :
    (basic c out hc).Readable s := by
  intro p d q first ht _ _
  simp only [text, spans_cons, spans_nil] at ht
  refine Reads.call ?_
  refine Reads.counted ?_
  refine Reads.after (peek_of_eq (charAt_of_some ht.1)) ?_
  simp only [hc]
  exact Reads.after advance_eq (reads_pure _ ht.2)

theorem array {elem : Term .typeRef} {len : Term .constant} (helem : elem.Readable s)
    (hlen : len.Readable s) : (array elem len).Readable s := by
  intro p d q first ht hres hfollow
  simp only [text, spans_cons, spans_append] at ht
  obtain ⟨hc, _, ⟨htelem, rfl⟩, htlen⟩ := ht
  refine compound (charAt_of_some hc) rfl (Reads.after advance_eq ?_)
  refine Reads.bind (helem _ _ _ true ⟨htelem, rfl⟩ hres.1 fun h ↦ len.starts htlen (by simp [h]))
    (fun _ ↦ broken_constant.bind fun _ ↦ broken_pure _) ?_
  exact Reads.map (hlen _ _ _ true htlen hres.2 hfollow)

theorem slice {elem : Term .typeRef} (helem : elem.Readable s) : (slice elem).Readable s := by
  intro p d q first ht hres hfollow
  obtain ⟨hc, ht⟩ := spans_cons.1 ht
  refine compound (charAt_of_some hc) rfl (Reads.after advance_eq ?_)
  exact Reads.map (helem _ _ _ true ht hres hfollow)

theorem tuple {elems : Term .types} (helems : elems.Readable s) : (tuple elems).Readable s := by
  intro p d q first ht hres hfollow
  simp only [text, spans_cons, spans_append, spans_nil] at ht
  obtain ⟨hc, _, htelems, hE, rfl⟩ := ht
  have hE := charAt_of_some hE
  refine compound (charAt_of_some hc) rfl (Reads.after advance_eq ?_)
  refine Reads.bind_flat (helems _ _ _ true htelems hres hE)
    (fun _ ↦ (broken_eat _).bind fun _ ↦ broken_pure _) ?_
  refine Reads.after (eat_of_eq hE) ?_
  exact reads_pure _ rfl

theorem ref (isMut : Bool) (lifetime : Option Number) {target : Term .typeRef}
    (htarget : target.Readable s) : (ref isMut lifetime target).Readable s := by
  intro p d q first ht hres hfollow
  simp only [text, spans_cons, spans_append] at ht
  obtain ⟨hc, _, ⟨hlt, rfl⟩, ht⟩ := ht
  have hnot : charAt s (p + 1 + (taggedText 'L' lifetime).length) ≠ 'L' := fun h ↦
    target.starts ht (by simp [h])
  have hx (pre : String) : Reads (fun n ↦ refAfter s (call .none s n) pre) p (d + 1)
      target.nesting q (pre ++ target.displayFrom true) := by
    refine Reads.after advance_eq ?_
    refine Reads.after (tagged_of_text hlt (.inl hnot)) ?_
    exact Reads.map (htarget _ _ _ true ht hres hfollow)
  cases isMut with
  | false => exact compound (charAt_of_some hc) rfl (hx "&")
  | true => exact compound (charAt_of_some hc) rfl (hx "&mut ")

theorem ptr (isMut : Bool) {target : Term .typeRef} (htarget : target.Readable s) :
    (ptr isMut target).Readable s := by
  intro p d q first ht hres hfollow
  obtain ⟨hc, ht⟩ := spans_cons.1 ht
  have hx (pre : String) : Reads (fun n ↦ typeAfter (call .none s n) pre) p (d + 1)
      target.nesting q (pre ++ target.displayFrom true) := by
    refine Reads.after advance_eq ?_
    exact Reads.map (htarget _ _ _ true ht hres hfollow)
  cases isMut with
  | false => exact compound (charAt_of_some hc) rfl (hx "*const ")
  | true => exact compound (charAt_of_some hc) rfl (hx "*mut ")

theorem fn {sig : Term .fnSig} (hsig : sig.Readable s) : (fn sig).Readable s := by
  intro p d q first ht hres hfollow
  obtain ⟨hc, ht⟩ := spans_cons.1 ht
  refine compound (charAt_of_some hc) rfl ?_
  exact Reads.after advance_eq (hsig _ _ _ true ht hres hfollow)

theorem dyn {bounds : Term .dynBounds} (lifetime : Number) (hbounds : bounds.Readable s) :
    (dyn bounds lifetime).Readable s := by
  intro p d q first ht hres _
  obtain ⟨hc, ht⟩ := spans_cons.1 ht
  obtain ⟨_, htbounds, hlt, rfl⟩ := spans_append.1 ht
  have hL := charAt_of_some (cons_prefix_drop.1 hlt).1
  refine compound (charAt_of_some hc) rfl (Reads.after advance_eq ?_)
  refine Reads.bind_flat (hbounds _ _ _ true htbounds hres fun h ↦ by cases hL.symm.trans h)
    (fun _ ↦ (broken_tagged _).bind fun _ ↦ broken_pure _) ?_
  exact Reads.after (tagged_of_text (o := some lifetime) hlt (.inr rfl)) (reads_pure _ rfl)

theorem named {t : Term .path} (ht : t.Readable s) : (named t).Readable s := by
  intro p d q first htext hres hfollow
  have hmem : charAt s p ∈ ['C', 'I', 'M', 'N', 'X', 'Y'] := t.starts htext
  have hbasic : ∀ c ∈ ['C', 'I', 'M', 'N', 'X', 'Y'], basicType c = none := by simp [basicType]
  refine compound rfl (hbasic _ hmem) ?_
  have hcompound (n : ℕ) :
      compoundType s (call .none s n) (charAt s p) = call .none s n .path := by
    generalize charAt s p = c at hmem
    simp only [List.mem_cons, List.not_mem_nil, or_false] at hmem
    rcases hmem with rfl | rfl | rfl | rfl | rfl | rfl <;> rfl
  simp only [hcompound]
  exact ht p (d + 1) q true htext hres hfollow

theorem typeHere {t : Term .type} (ht : t.Readable s) : (typeHere t).Readable s :=
  fun p d q _ ↦ ht p d q true

theorem typeBack (hlen : s.length < 2 ^ 64) (off : Number) {t : Term .typeRef}
    (ht : t.Readable s) : (typeBack off t).Readable s := by
  intro p d q first htext hres _
  obtain ⟨hlt, ⟨_, hthere, hend⟩, hres⟩ := hres
  obtain ⟨hc, hoff⟩ := spans_cons.1 htext
  refine compound (charAt_of_some hc) rfl ?_
  exact Reads.after advance_eq (reads_back hlen ht hc hoff hlt hthere hres hend)

/-! #### Constants and generic arguments -/

/-- What stands behind the type of a constant: a sign or a digit. -/
theorem value_start {neg : Bool} {digits cs : List Char} (hne : digits ≠ [])
    (hx : digits.all isXDigit = true)
    (ht : (if neg then ['n'] else []) ++ (digits ++ cs) <+: s.drop p) :
    charAt s p ≠ 'p' ∧ charAt s p ≠ '_' ∧ (neg = false → charAt s p ≠ 'n') := by
  cases neg with
  | true =>
    rw [charAt_of_some (cons_prefix_drop.1 ht).1]
    exact ⟨by decide, by decide, fun h ↦ by cases h⟩
  | false =>
    obtain ⟨c, ds, rfl⟩ := List.exists_cons_of_ne_nil hne
    have hc : isXDigit c = true := List.all_eq_true.1 hx c List.mem_cons_self
    have hat : charAt s p = c := charAt_of_some (cons_prefix_drop.1 ht).1
    have hne (c' : Char) (hc' : isXDigit c' = false) : c ≠ c' := by
      rintro rfl
      rw [hc] at hc'
      cases hc'
    rw [hat]
    exact ⟨hne 'p' rfl, hne '_' rfl, fun _ ↦ hne 'n' rfl⟩

theorem value {t : Term .type} (neg : Bool) (digits : List Char) (hne : digits ≠ [])
    (hx : digits.all isXDigit = true) (ht : t.Readable s) :
    (value t neg digits hne hx).Readable s := by
  intro p d q first htext hres _
  obtain ⟨_, httype, hrest⟩ := spans_append.1 htext
  obtain ⟨hnp, hnsep, hnn⟩ := value_start hne hx hrest.1
  simp only [spans_append, spans_cons, spans_nil] at hrest
  obtain ⟨_, ⟨hneg, rfl⟩, _, ⟨hdigits, rfl⟩, hsep, rfl⟩ := hrest
  have htake := takeWhile_drop_of_prefix (f := isXDigit) hdigits (List.all_eq_true.1 hx)
    (by rw [hsep]; intro c hc; cases hc; rfl)
  have hnotB : charAt s p ≠ 'B' := fun h ↦ t.starts httype (by simp [h])
  refine Reads.call ?_
  refine Reads.after (eat_of_ne hnotB) ?_
  refine Reads.bind_flat (ht _ _ _ true httype hres hnsep) (fun _ ↦ (broken_eat _).bind fun _ ↦
    (broken_pure _).ite <| (broken_eat _).bind fun _ ↦ (broken_takeWhile _).bind fun _ ↦
      (broken_eat _).bind fun _ ↦ broken_pure _) ?_
  refine Reads.after (eat_of_ne hnp) ?_
  refine Reads.after (eat_optional hneg hnn) ?_
  refine Reads.after (rfl : takeWhile s isXDigit _ = .ok (_, ⟨_, false, d⟩)) ?_
  rw [htake]
  refine Reads.after (eat_of_eq (charAt_of_some hsep)) ?_
  rw [if_neg hne]
  exact reads_pure _ rfl

theorem constBack (hlen : s.length < 2 ^ 64) (off : Number) {t : Term .constant}
    (ht : t.Readable s) : (constBack off t).Readable s := by
  intro p d q first htext hres _
  obtain ⟨hlt, ⟨_, hthere, hend⟩, hres⟩ := hres
  obtain ⟨hc, hoff⟩ := spans_cons.1 htext
  refine Reads.call ?_
  refine Reads.after (eat_of_eq (charAt_of_some hc)) ?_
  exact reads_back (k := .constant) (t := t) hlen ht hc hoff hlt hthere hres hend

theorem lifetimeArg (n : Number) : (lifetimeArg n).Readable s := by
  intro p d q first ht _ _
  obtain ⟨hc, hn, rfl⟩ := spans_cons.1 ht
  refine Reads.call ?_
  refine Reads.after (eat_of_eq (charAt_of_some hc)) ?_
  exact Reads.after (base62_of_text hn) (reads_pure _ rfl)

theorem constArg {c : Term .constant} (hc : c.Readable s) : (constArg c).Readable s := by
  intro p d q first ht hres hfollow
  obtain ⟨hK, ht⟩ := spans_cons.1 ht
  have hK := charAt_of_some hK
  refine Reads.call ?_
  refine Reads.after (eat_of_ne (by rw [hK]; decide)) ?_
  refine Reads.after (eat_of_eq hK) ?_
  exact hc _ _ _ true ht hres hfollow

theorem typeArg {t : Term .typeRef} (ht : t.Readable s) : (typeArg t).Readable s := by
  intro p d q first htext hres hfollow
  have hstart := t.starts htext
  refine Reads.call ?_
  refine Reads.after (eat_of_ne fun h ↦ hstart (by simp [h])) ?_
  refine Reads.after (eat_of_ne fun h ↦ hstart (by simp [h])) ?_
  exact ht _ _ _ true htext hres hfollow

/-! #### Functions and trait objects -/

theorem abi_of_text {o : Option (Option Ident)} (hlen : s.length < 2 ^ 64)
    (ht : Spans s p (abiText o) q) (hnot : charAt s q ≠ 'K') (hend : charAt s q ≠ '_') :
    abi .none s ⟨p, false, d⟩ = .ok ((), ⟨q, false, d⟩) := by
  rcases o with _ | _ | id
  · obtain rfl := spans_nil.1 ht
    exact bind_of_ok (eat_of_ne hnot) _
  · simp only [abiText, spans_cons, spans_nil] at ht
    obtain ⟨hK, hC, rfl⟩ := ht
    refine (bind_of_ok (eat_of_eq (charAt_of_some hK)) _).trans ?_
    exact bind_of_ok (eat_of_eq (charAt_of_some hC)) _
  · obtain ⟨hK, hid, rfl⟩ := spans_cons.1 ht
    refine (bind_of_ok (eat_of_eq (charAt_of_some hK)) _).trans ?_
    refine (bind_of_ok (eat_of_ne (Ident.head_ne hid (by decide) (by decide))) _).trans ?_
    exact bind_of_ok (ident_of_text hlen hid hend) _

/-- What stands behind a binder does not begin with a `G`, nor with a `U` unless there is one. -/
theorem sig_start {isUnsafe : Bool} {o : Option (Option Ident)} {m : ℕ}
    (hun : Spans s p (if isUnsafe then ['U'] else []) m) (habi : Spans s m (abiText o) q)
    (hstart : charAt s q ∉ ['G', 'K', 'L', 'U', '_']) :
    charAt s p ≠ 'G' ∧ (isUnsafe = false → charAt s p ≠ 'U') := by
  have hm : charAt s m ∉ ['G', 'U'] := by
    cases o with
    | none =>
      rw [← spans_nil.1 habi]
      exact fun h ↦ hstart (by simp only [List.mem_cons] at h ⊢; tauto)
    | some o =>
      have hK : charAt s m = 'K' := by cases o <;> exact charAt_of_spans habi
      rw [hK]
      decide
  cases isUnsafe with
  | true =>
    rw [charAt_of_spans hun]
    exact ⟨by decide, fun h ↦ by cases h⟩
  | false =>
    rw [← spans_nil.1 hun]
    exact ⟨fun h ↦ hm (by simp [h]), fun _ h ↦ hm (by simp [h])⟩

theorem fnSig (hlen : s.length < 2 ^ 64) (binder : Option Number) (isUnsafe : Bool)
    (abi : Option (Option Ident)) {args : Term .types} {ret : Term .typeRef}
    (hargs : args.Readable s) (hret : ret.Readable s) :
    (Term.fnSig binder isUnsafe abi args ret).Readable s := by
  intro p d q first ht hres hfollow
  simp only [text, spans_append, spans_cons] at ht
  obtain ⟨_, ⟨hbinder, rfl⟩, _, ⟨hun, rfl⟩, _, ⟨habi, rfl⟩, _, ⟨htargs, rfl⟩, hE, htret⟩ := ht
  have hE := charAt_of_some hE
  have hstart := args.starts_types ⟨htargs, rfl⟩ hE
  obtain ⟨hG, hU⟩ := sig_start ⟨hun, rfl⟩ ⟨habi, rfl⟩ hstart
  refine Reads.call ?_
  refine Reads.after (tagged_of_text hbinder (.inl hG)) ?_
  refine Reads.after (eat_optional hun hU) ?_
  refine Reads.after (abi_of_text hlen ⟨habi, rfl⟩ (fun h ↦ hstart (by simp [h]))
    fun h ↦ hstart (by simp [h])) ?_
  refine Reads.bind (hargs _ _ _ true ⟨htargs, rfl⟩ hres.1 hE) (fun _ ↦ (broken_eat _).bind fun _ ↦
    broken_type.bind fun _ ↦ broken_pure _) ?_
  refine Reads.after (eat_of_eq hE) ?_
  exact Reads.map (hret _ _ _ true htret hres.2 hfollow)

theorem dynBounds (binder : Option Number) {traits : Term .traits} (htraits : traits.Readable s) :
    (Term.dynBounds binder traits).Readable s := by
  intro p d q first ht hres _
  simp only [text, spans_append, spans_cons, spans_nil] at ht
  obtain ⟨_, ⟨hbinder, rfl⟩, _, httraits, hE, rfl⟩ := ht
  have hE := charAt_of_some hE
  have hstart := traits.starts_traits httraits hE
  refine Reads.call ?_
  refine Reads.after (tagged_of_text hbinder (.inl fun h ↦ hstart (by simp [h]))) ?_
  refine Reads.bind_flat (htraits _ _ _ true httraits hres hE)
    (fun _ ↦ (broken_eat _).bind fun _ ↦ broken_pure _) ?_
  exact Reads.after (eat_of_eq hE) (reads_pure _ rfl)

/-! #### Lists -/

theorem elements_nil {sep : String} {first : Bool} {x y : ℕ → Parse String}
    (hE : charAt s p = 'E') : Reads (fun n ↦ elements s first sep (x n) (y n)) p d 0 p "" :=
  (reads_pure "" rfl).of_run fun _ ↦ (elements_eq _).trans (if_pos (.inl hE))

theorem elements_cons {sep a b : String} {first : Bool} {x y : ℕ → Parse String} {h' m : ℕ}
    (hE : charAt s p ≠ 'E') (hx : Reads x p d h m a) (hbroken : Broken y)
    (hy : Reads y m d h' q b) : Reads (fun n ↦ elements s first sep (x n) (y n)) p d (max h h') q
      ((if first then "" else sep) ++ a ++ b) := by
  have hnot : ¬(charAt s p = 'E' ∨ false = true) := by simp [hE]
  refine Reads.of_run ?_ fun n ↦ (elements_eq _).trans (if_neg hnot)
  refine Reads.bind hx (fun _ ↦ hbroken.bind fun _ ↦ broken_pure _) ?_
  exact Reads.bind_flat hy (fun _ ↦ broken_pure _) (reads_pure _ rfl)

theorem noArgs : noArgs.Readable s := by
  intro p d q first ht _ hfollow
  obtain rfl := spans_nil.1 ht
  refine Reads.call ?_
  exact elements_nil hfollow

theorem consArg {arg : Term .genericArg} {args : Term .genericArgs} (harg : arg.Readable s)
    (hargs : args.Readable s) : (consArg arg args).Readable s := by
  intro p d q first ht hres hfollow
  obtain ⟨_, ⟨htarg, rfl⟩, htargs⟩ := spans_append.1 ht
  have hstart := arg.starts ⟨htarg, rfl⟩
  refine Reads.call ?_
  exact elements_cons (fun h ↦ hstart (by simp [h])) (harg _ _ _ true ⟨htarg, rfl⟩ hres.1
    (args.starts_genericArgs htargs hfollow)) (broken_list false).1
    (hargs _ _ _ false htargs hres.2 hfollow)

theorem noTypes : noTypes.Readable s := by
  intro p d q first ht _ hfollow
  obtain rfl := spans_nil.1 ht
  refine Reads.call ?_
  exact elements_nil hfollow

theorem consType {t : Term .typeRef} {ts : Term .types} (ht : t.Readable s) (hts : ts.Readable s) :
    (consType t ts).Readable s := by
  intro p d q first htext hres hfollow
  obtain ⟨_, ⟨htt, rfl⟩, htts⟩ := spans_append.1 htext
  have hstart := t.starts ⟨htt, rfl⟩
  refine Reads.call ?_
  exact elements_cons (fun h ↦ hstart (by simp [h])) (ht _ _ _ true ⟨htt, rfl⟩ hres.1 fun h ↦
    ts.starts_types htts hfollow (by simp [h])) (broken_list false).2.1
    (hts _ _ _ false htts hres.2 hfollow)

theorem noTraits : noTraits.Readable s := by
  intro p d q first ht _ hfollow
  obtain rfl := spans_nil.1 ht
  refine Reads.call ?_
  exact elements_nil hfollow

theorem consTrait {trait : Term .pathRef} {bindings : Term .bindings} {ts : Term .traits}
    (htrait : trait.Readable s) (hbindings : bindings.Readable s) (hts : ts.Readable s) :
    (consTrait trait bindings ts).Readable s := by
  intro p d q first ht hres hfollow
  simp only [text, spans_append] at ht
  obtain ⟨_, ⟨httrait, rfl⟩, _, ⟨htbindings, rfl⟩, htts⟩ := ht
  have hstart := trait.starts ⟨httrait, rfl⟩
  have hbehind := ts.starts_traits htts hfollow
  have hend : charAt s (p + trait.text.length + bindings.text.length) ≠ 'p' ∧
      charAt s (p + trait.text.length + bindings.text.length) ≠ '_' :=
    ⟨fun h ↦ hbehind (by simp [h]), fun h ↦ hbehind (by simp [h])⟩
  refine Reads.call ?_
  refine elements_cons (fun h ↦ pathRef_ne _ hstart (by simp [h])) ?_ (broken_list false).2.2
    (hts _ _ _ false htts hres.2.2 hfollow)
  refine Reads.bind (htrait _ _ _ true ⟨httrait, rfl⟩ hres.1
    (bindings.starts_bindings ⟨htbindings, rfl⟩ hend.2)) (fun _ ↦ broken_bindings.bind fun _ ↦
      broken_pure _) ?_
  exact Reads.map (hbindings _ _ _ true ⟨htbindings, rfl⟩ hres.2.1 hend)

theorem noBindings : noBindings.Readable s := by
  intro p d q first ht _ hfollow
  obtain rfl := spans_nil.1 ht
  refine Reads.call ?_
  exact Reads.after (eat_of_ne hfollow.1) (reads_pure _ rfl)

theorem consBinding (hlen : s.length < 2 ^ 64) (id : Ident) {t : Term .typeRef}
    {bs : Term .bindings} (ht : t.Readable s) (hbs : bs.Readable s) :
    (consBinding id t bs).Readable s := by
  intro p d q first htext hres hfollow
  simp only [text, spans_cons, spans_append] at htext
  obtain ⟨hp, _, ⟨hid, rfl⟩, _, ⟨htt, rfl⟩, htbs⟩ := htext
  refine Reads.call ?_
  refine Reads.after (eat_of_eq (charAt_of_some hp)) ?_
  refine Reads.after (ident_of_text hlen hid (t.ne_sep_typeRef ⟨htt, rfl⟩)) ?_
  refine Reads.bind (ht _ _ _ true ⟨htt, rfl⟩ hres.1 (bs.starts_bindings htbs hfollow.2))
    (fun _ ↦ broken_bindings) ?_
  exact hbs _ _ _ true htbs hres.2 hfollow

end Term.Readable

/-- Every term is read wherever it stands: one rule for each constructor. -/
theorem Term.readable (hlen : s.length < 2 ^ 64) (t : Term k) : t.Readable s := by
  induction t with
  | crate dis id => exact .crate hlen dis id
  | nested ns _ dis id hbase => exact .nested hlen ns dis id hbase
  | inherentImpl dis _ _ hparent hself => exact .inherentImpl dis hparent hself
  | traitImpl dis _ _ _ hparent hself htrait => exact .traitImpl dis hparent hself htrait
  | traitDef _ _ hself htrait => exact .traitDef hself htrait
  | generic _ _ hbase hargs => exact .generic hbase hargs
  | pathHere _ ht => exact .pathHere ht
  | pathBack off _ ht => exact .pathBack hlen off ht
  | basic c out hc => exact .basic c out hc
  | array _ _ helem hl => exact .array helem hl
  | slice _ helem => exact .slice helem
  | tuple _ helems => exact .tuple helems
  | ref isMut lifetime _ ht => exact .ref isMut lifetime ht
  | ptr isMut _ ht => exact .ptr isMut ht
  | fn _ hsig => exact .fn hsig
  | dyn _ lifetime hbounds => exact .dyn lifetime hbounds
  | named _ ht => exact .named ht
  | typeHere _ ht => exact .typeHere ht
  | typeBack off _ ht => exact .typeBack hlen off ht
  | value _ neg digits hne hx ht => exact .value neg digits hne hx ht
  | constBack off _ hc => exact .constBack hlen off hc
  | lifetimeArg n => exact .lifetimeArg n
  | constArg _ hc => exact .constArg hc
  | typeArg _ ht => exact .typeArg ht
  | fnSig binder isUnsafe abi _ _ hargs hret => exact .fnSig hlen binder isUnsafe abi hargs hret
  | dynBounds binder _ htraits => exact .dynBounds binder htraits
  | noArgs => exact .noArgs
  | consArg _ _ harg hargs => exact .consArg harg hargs
  | noTypes => exact .noTypes
  | consType _ _ ht hts => exact .consType ht hts
  | noTraits => exact .noTraits
  | consTrait _ _ _ htrait hbindings hts => exact .consTrait htrait hbindings hts
  | noBindings => exact .noBindings
  | consBinding id _ _ ht hbs => exact .consBinding hlen id ht hbs

end Terms

/-! ### Whole symbols -/

/-- What is displayed for a term that begins a text. -/
def Term.display {k : Phrase} (t : Term k) : String :=
  t.displayFrom true

/-- A path stands at the beginning of the symbol behind its prefix, and what it refers back to
stands there. -/
structure Term.Mangled (t : Term .path) (sym : List Char) : Prop where
  begins : ['_', 'R'] <+: sym
  text : t.text <+: v0Body sym
  ends : charAt (v0Body sym) t.text.length ≠ '_'
  resolved : t.Resolved (v0Body sym) 0

theorem Term.text_ne_nil (t : Term .path) : t.text ≠ [] := by
  cases t <;> exact List.cons_ne_nil _ _

/-- The path of the function `bar` of the crate `foo`, for the type `Baz` of the same crate, which
is referred back to. -/
def fooBarBaz : Term .path :=
  .generic (.pathHere (.nested 'v' (.pathHere (.crate none ⟨false, false, "foo".toList, by simp⟩))
      none ⟨false, false, "bar".toList, by simp⟩))
    (.consArg (.typeArg (.typeHere (.named (.nested 't'
      (.pathBack ⟨['2'], by simp [base62Digit]⟩
        (.pathHere (.crate none ⟨false, false, "foo".toList, by simp⟩)))
      none ⟨false, false, "Baz".toList, by simp⟩)))) .noArgs)

end Rust

end Ldu
