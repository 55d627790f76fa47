import GoRdf.Core.SrlEval
import GoRdf.Theory.SrlModel

/-!
# Matching Texts Is Matching Terms

The engine works on texts. The text of a ground term can be read back, so texts
and terms are the same thing to it: where a list of text triples stands for a set
of triples, the bindings that satisfy a body stand for the substitutions that do,
and the new triples of a round for what the rules derive.

## Main definitions

* `GroundTerm.key`, `GroundTriple.keys`: The texts.
* `SrlTerm.plain`, `plainBody`: Patterns without triple terms.
* `Represents`, `StandsFor`: A binding for a substitution, a list for a set.

## Theorems

* `srlKeyToTerm_key`: Texts are read back.
* `matchGroundTriple_iff_matches`: One pattern.
* `mem_matchElements_iff`: One body.
* `mem_newTriples_iff`: One round.
-/

namespace GoRdf

open Lib List Option Finmap GroundTerm

variable {b : SrlBinding} {t : SrlTriple} {σ : Subst} {x : GroundTerm}

/-! ## Texts -/

/-- The text of a ground term. -/
def GroundTerm.key : GroundTerm → Key
  | .iri v => '<' :: v.toList ++ ['>']
  | .blank v => '_' :: ':' :: v.toList
  | .typed v dt _ =>
    '\x22' :: escapeLiteralValue v.toList ++ ['\x22', '^', '^', '<'] ++ dt.toList ++ ['>']
  | .tagged v lang _ => '\x22' :: escapeLiteralValue v.toList ++ ['\x22', '@'] ++ lang.toList

/-- The term of package `shacl` that a ground term is. -/
def GroundTerm.toShacl : GroundTerm → ShaclTerm
  | .iri v => .iri v
  | .blank v => .blank v
  | .typed v dt _ => .literal v dt ""
  | .tagged v lang _ => .literal v (tagDatatype lang.toList) lang

theorem GroundTerm.toShacl_injective : Function.Injective toShacl := by
  intro x y h
  cases x <;> cases y <;> simp_all [toShacl]

/-- The ground term a term of package `shacl` is. A literal without a datatype is a
    string. -/
def ShaclTerm.ground : ShaclTerm → Option GroundTerm
  | .none => Option.none
  | .iri v => some (.iri v)
  | .blank v => some (.blank v)
  | .literal v dt lang =>
    if hlang : lang ≠ "" then some (.tagged v (lowerTag lang) (lowerTag_ne hlang))
    else if hdt : dt ≠ "" then some (.typed v dt hdt)
    else some (.typed v xsdStringIRI (by decide))

/-- The language tag is in lower case. The parser of rules leaves it as it is written. -/
def SrlTerm.lowered : SrlTerm → Bool
  | .literal _ _ lang => lowerTag lang == lang
  | _ => true

/-- The same of a term of package `shacl`. Those of a graph are all in lower case. -/
def ShaclTerm.lowered : ShaclTerm → Bool
  | .literal _ _ lang => lowerTag lang == lang
  | _ => true

theorem srlTermToKey_of_ground {t : SrlTerm} (h : t.ground = some x) (hlower : t.lowered = true) :
    srlTermToKey t = x.key := by
  cases t with
  | iri v | blank v =>
    cases h
    rfl
  | literal v dt lang =>
    rw [SrlTerm.ground] at h
    split_ifs at h with hlang hdt <;> cases h <;> rw [srlTermToKey]
    · rw [if_pos hlang, key, eq_of_beq hlower]
    · rw [if_neg hlang, key]
  | var v | triple s p o => cases h

theorem termToSrlKey_of_ground {t : ShaclTerm} (h : t.ground = some x)
    (hlower : t.lowered = true) : termToSrlKey t = x.key := by
  cases t with
  | none => cases h
  | iri v | blank v =>
    cases h
    rfl
  | literal v dt lang =>
    rw [ShaclTerm.ground] at h
    split_ifs at h with hlang hdt <;> cases h <;> rw [termToSrlKey]
    · rw [if_pos hlang, key, eq_of_beq hlower]
    · rw [if_neg hlang, if_neg hdt, key]
    · rw [if_neg hlang, if_pos (not_not.mp hdt), key]

/-- An escape is one character, or a backslash with a character that says which. -/
theorem escapeChar_split (c : Char) :
    (escapeChar c = [c] ∧ c ≠ '\x5c' ∧ c ≠ '\x22') ∨
      ∃ d, escapeChar c = ['\x5c', d] ∧
        (if d = 'n' then '\n' else if d = 'r' then '\r' else if d = 't' then '\t' else d) = c := by
  unfold escapeChar
  split_ifs with h₁ h₂ h₃ h₄ h₅
  · exact .inr ⟨'\x5c', rfl, by rw [h₁]; decide⟩
  · exact .inr ⟨'\x22', rfl, by rw [h₂]; decide⟩
  · exact .inr ⟨'n', rfl, by rw [h₃]; decide⟩
  · exact .inr ⟨'r', rfl, by rw [h₄]; decide⟩
  · exact .inr ⟨'t', rfl, by rw [h₅]; decide⟩
  · exact .inl ⟨rfl, h₁, h₂⟩

theorem unescapeLiteralValue_cons {c : Char} (hc : c ≠ '\x5c') (cs : List Char) :
    unescapeLiteralValue (c :: cs) = c :: unescapeLiteralValue cs := by
  rw [unescapeLiteralValue.eq_def]
  split <;> simp_all

theorem unescapeLiteralValue_escape (cs : List Char) :
    unescapeLiteralValue (escapeLiteralValue cs) = cs := by
  induction cs with
  | nil => rfl
  | cons c cs ih =>
    change unescapeLiteralValue (escapeChar c ++ escapeLiteralValue cs) = c :: cs
    rcases escapeChar_split c with ⟨hesc, hslash, -⟩ | ⟨d, hesc, hd⟩
    · rw [hesc, singleton_append, unescapeLiteralValue_cons hslash, ih]
    · rw [hesc, cons_append, singleton_append, unescapeLiteralValue, ih, hd]

theorem splitAtQuote_cons {c : Char} (hslash : c ≠ '\x5c') (hquote : c ≠ '\x22') (cs : List Char) :
    splitAtQuote (c :: cs) = (c :: (splitAtQuote cs).1, (splitAtQuote cs).2) := by
  rw [splitAtQuote.eq_def]
  split <;> simp_all

theorem splitAtQuote_escape (cs r : List Char) :
    splitAtQuote (escapeLiteralValue cs ++ '\x22' :: r) = (escapeLiteralValue cs, r) := by
  induction cs with
  | nil =>
    change splitAtQuote ('\x22' :: r) = ([], r)
    rw [splitAtQuote]
    · exact if_pos rfl
    · exact nofun
    · exact nofun
  | cons c cs ih =>
    change splitAtQuote (escapeChar c ++ escapeLiteralValue cs ++ '\x22' :: r) =
      (escapeChar c ++ escapeLiteralValue cs, r)
    rcases escapeChar_split c with ⟨hesc, hslash, hquote⟩ | ⟨d, hesc, -⟩
    · rw [hesc, singleton_append, cons_append, splitAtQuote_cons hslash hquote, ih]
    · rw [hesc, cons_append, singleton_append, cons_append, cons_append, splitAtQuote, ih]

/-- Texts are read back. -/
theorem srlKeyToTerm_key (x : GroundTerm) : srlKeyToTerm x.key = x.toShacl := by
  have hlast : ∀ cs : List Char, (cs ++ ['>']).getLast? = some '>' := fun cs => by simp
  have hdrop : ∀ s : String, String.ofList (s.toList ++ ['>']).dropLast = s := fun s => by simp
  cases x with
  | iri v =>
    change (if (v.toList ++ ['>']).getLast? = some '>' then
      ShaclTerm.iri (String.ofList (v.toList ++ ['>']).dropLast) else _) = _
    rw [if_pos (hlast _), hdrop]
    rfl
  | blank v =>
    change ShaclTerm.blank (String.ofList v.toList) = _
    rw [String.ofList_toList]
    rfl
  -- A key is read from its first quote to the next one that is not escaped.
  | typed v dt hdt =>
    have hkey : (typed v dt hdt).key = '\x22' :: (escapeLiteralValue v.toList ++
        '\x22' :: '^' :: '^' :: '<' :: (dt.toList ++ ['>'])) := by
      simp [key]
    rw [hkey, srlKeyToTerm, parseSrlKeyLiteral, splitAtQuote_escape]
    change (if (dt.toList ++ ['>']).getLast? = some '>' then
      ShaclTerm.literal (String.ofList (unescapeLiteralValue (escapeLiteralValue v.toList)))
        (String.ofList (dt.toList ++ ['>']).dropLast) "" else _) = _
    rw [if_pos (hlast _), hdrop, unescapeLiteralValue_escape, String.ofList_toList]
    rfl
  | tagged v lang hlang =>
    have hkey : (tagged v lang hlang).key =
        '\x22' :: (escapeLiteralValue v.toList ++ '\x22' :: '@' :: lang.toList) := by
      simp [key]
    rw [hkey, srlKeyToTerm, parseSrlKeyLiteral, splitAtQuote_escape]
    change ShaclTerm.literal (String.ofList (unescapeLiteralValue (escapeLiteralValue v.toList)))
      (tagDatatype lang.toList) (String.ofList lang.toList) = _
    rw [unescapeLiteralValue_escape, String.ofList_toList, String.ofList_toList]
    rfl

theorem GroundTerm.key_injective : Function.Injective key := by
  intro x y h
  apply toShacl_injective
  rw [← srlKeyToTerm_key, ← srlKeyToTerm_key, h]

/-- An RDF term: a ground term, or a triple term. -/
inductive RdfTerm
  | ground (x : GroundTerm)
  | triple (s p o : RdfTerm)
deriving DecidableEq

/-- The RDF term that a term of a rule without variables denotes. -/
def SrlTerm.denotes : SrlTerm → Option RdfTerm
  | .triple s p o =>
    s.denotes.bind fun s => p.denotes.bind fun p => o.denotes.map fun o => .triple s p o
  | t => t.ground.map .ground

/-- The RDF term that a term of package `shacl` denotes. -/
def ShaclTerm.denotes (u : ShaclTerm) : Option RdfTerm :=
  u.ground.map .ground

/-- A triple term. -/
def SrlTerm.isTriple : SrlTerm → Bool
  | .triple _ _ _ => true
  | _ => false

/-- What is read back from the text of a term is that term, up to the case of its tag. -/
theorem denotes_srlKeyToTerm {t : SrlTerm} (h : t.ground = some x) :
    (srlKeyToTerm (srlTermToKey t)).denotes = some (.ground x) := by
  have hground : ∀ y : GroundTerm, srlTermToKey t = y.key → y.toShacl.ground = some x →
      (srlKeyToTerm (srlTermToKey t)).denotes = some (.ground x) := by
    intro y hkey hy
    rw [hkey, srlKeyToTerm_key, ShaclTerm.denotes, hy]
    rfl
  cases t with
  | iri v =>
    cases h
    exact hground (.iri v) rfl rfl
  | blank v =>
    cases h
    exact hground (.blank v) rfl rfl
  | literal v dt lang =>
    rw [SrlTerm.ground] at h
    split_ifs at h with hlang hdt <;> cases h
    · exact hground (.tagged v lang hlang) (by rw [srlTermToKey, if_pos hlang, key])
        (by rw [toShacl, ShaclTerm.ground, dif_pos hlang])
    · exact hground (.typed v dt hdt) (by rw [srlTermToKey, if_neg hlang, key])
        (by simp [toShacl, ShaclTerm.ground, hdt])
  | var v | triple s p o => cases h

/-- The text of a triple term looks like the text of an IRI. -/
theorem denotes_triple_key (s p o : SrlTerm) :
    ∃ v, (srlKeyToTerm (srlTermToKey (.triple s p o))).denotes = some (.ground (.iri v)) := by
  simp only [srlTermToKey, cons_append, nil_append, srlKeyToTerm]
  split <;> exact ⟨_, rfl⟩

theorem asciiLower_asciiLower (c : Char) : asciiLower (asciiLower c) = asciiLower c := by
  rw [asciiLower]
  refine if_neg fun h => ?_
  unfold asciiLower at h
  split_ifs at h with hc
  · have hlow : 65 ≤ c.toNat := hc.1
    have hhigh : c.toNat ≤ 90 := hc.2
    have hvalid : (c.toNat + 32).isValidChar := .inl (by omega)
    have hnat : Char.ofNat (c.toNat + 32) = Char.ofNatAux _ hvalid := dif_pos hvalid
    have hle : (Char.ofNatAux _ hvalid).toNat ≤ 90 := hnat ▸ h.2
    rw [show (Char.ofNatAux _ hvalid).toNat = c.toNat + 32 from rfl] at hle
    omega
  · exact hc h

theorem lowerTag_lowerTag (lang : String) : lowerTag (lowerTag lang) = lowerTag lang := by
  rw [lowerTag, lowerTag, String.toList_ofList, List.map_map]
  exact congrArg _ (map_congr_left fun c _ => asciiLower_asciiLower c)

/-- A literal of the data with the tag in lower case is the same term and has another text. -/
theorem lowered_of_exact {v dt lang : String} {m : RdfTerm}
    (h : (SrlTerm.literal v dt lang).denotes = some m)
    (hexact : ∀ u, ShaclTerm.lowered u = true → u.denotes = some m →
      srlTermToKey (.literal v dt lang) = termToSrlKey u) :
    lowerTag lang = lang := by
  by_cases hlang : lang = ""
  · rw [hlang]
    rfl
  · let u : ShaclTerm := .literal v dt (lowerTag lang)
    have hu : u.denotes = some m := by
      rw [← h]
      simp [u, SrlTerm.denotes, ShaclTerm.denotes, SrlTerm.ground, ShaclTerm.ground, hlang,
        lowerTag_ne hlang, lowerTag_lowerTag]
    have hkey := hexact u (by simp [u, ShaclTerm.lowered, lowerTag_lowerTag]) hu
    rw [srlTermToKey, termToSrlKey, if_pos hlang, if_pos (lowerTag_ne hlang)] at hkey
    exact (String.toList_inj.mp (append_cancel_left hkey)).symm

/-- The text of a term is read back as the term, and is the text of the same term in the data
    and of no other, exactly if it is no triple term and its tag is in lower case. -/
theorem srlTermToKey_exact_iff {t : SrlTerm} {m : RdfTerm} (h : t.denotes = some m) :
    ((srlKeyToTerm (srlTermToKey t)).denotes = some m ∧ ∀ u m', ShaclTerm.lowered u = true →
        u.denotes = some m' → (srlTermToKey t = termToSrlKey u ↔ m = m')) ↔
      t.isTriple = false ∧ t.lowered = true := by
  -- A term that is no triple term, with its tag in lower case, has the text of its ground term.
  have hmain : ∀ {x}, t.ground = some x → m = .ground x → t.lowered = true →
      ((srlKeyToTerm (srlTermToKey t)).denotes = some m ∧ ∀ u m', ShaclTerm.lowered u = true →
        u.denotes = some m' → (srlTermToKey t = termToSrlKey u ↔ m = m')) := by
    rintro x hx rfl hlower
    refine ⟨denotes_srlKeyToTerm hx, fun u m' hu hm' => ?_⟩
    obtain ⟨y, hy, rfl⟩ := map_eq_some_iff.mp hm'
    rw [srlTermToKey_of_ground hx hlower, termToSrlKey_of_ground hy hu, key_injective.eq_iff,
      RdfTerm.ground.injEq]
  cases t with
  | triple s p o =>
    refine iff_of_false (fun hexact => ?_) (by simp [SrlTerm.isTriple])
    obtain ⟨v, hv⟩ := denotes_triple_key s p o
    rw [hexact.1, ← h] at hv
    simp [SrlTerm.denotes, bind_eq_some_iff] at hv
  | iri | var | blank =>
    obtain ⟨x, hx, rfl⟩ := map_eq_some_iff.mp h
    exact iff_of_true (hmain hx rfl rfl) ⟨rfl, rfl⟩
  | literal v dt lang =>
    obtain ⟨x, hx, hxm⟩ := map_eq_some_iff.mp h
    refine ⟨fun hexact => ⟨rfl, ?_⟩, fun hlower => hmain hx hxm.symm hlower.2⟩
    exact beq_iff_eq.mpr (lowered_of_exact h fun u hu hm => (hexact.2 u m hu hm).mpr rfl)

/-- A term with quotes, a backslash and a direction in it. -/
theorem srlTermToKey_exact_tagged :
    (srlKeyToTerm (srlTermToKey (.literal "a\x22\x5c" "" "ar--ltr"))).denotes =
      some (.ground (.tagged "a\x22\x5c" "ar--ltr" (by decide))) :=
  ((srlTermToKey_exact_iff rfl).mpr ⟨rfl, by decide⟩).1

/-- A triple term comes back as an IRI. -/
theorem triple_key_read_as_iri :
    srlKeyToTerm (srlTermToKey (.triple (.iri "s") (.iri "p") (.iri "o"))) =
      .iri "<(<s> <p> <o>)>" := by
  decide +kernel

/-- The texts of a ground triple. -/
def GroundTriple.keys (g : GroundTriple) : SrlGroundTriple :=
  ⟨g.s.key, g.p.key, g.o.key⟩

theorem GroundTriple.keys_injective : Function.Injective GroundTriple.keys := by
  rintro ⟨s, p, o⟩ ⟨s', p', o'⟩ h
  simp only [GroundTriple.keys, SrlGroundTriple.mk.injEq] at h
  rw [key_injective h.1, key_injective h.2.1, key_injective h.2.2]

/-! ## Patterns -/

/-- A variable, or a constant that is a ground term and has its tag in lower case. -/
def SrlTerm.plain : SrlTerm → Bool
  | .var _ => true
  | t => t.ground.isSome && t.lowered

theorem SrlTerm.lowered_of_plain {t : SrlTerm} (h : t.plain = true) : t.lowered = true := by
  cases t with
  | var | iri | blank => rfl
  | literal => exact (Bool.and_eq_true_iff.mp h).2
  | triple => cases h

/-- A pattern of such terms. -/
def SrlTriple.plain (t : SrlTriple) : Bool :=
  t.subject.plain && t.predicate.plain && t.object.plain

/-- The binding stands for the substitution. -/
def Represents (b : SrlBinding) (σ : Subst) : Prop :=
  ∀ v, b.lookup v = (σ v).map key

theorem represents_empty : Represents ∅ fun _ => none :=
  fun _ => lookup_empty _

theorem instantiateTerm_eq (h : Represents b σ) {t : SrlTerm} (ht : t.plain = true) :
    instantiateTerm t b = (t.value σ).map key := by
  cases t with
  | var v => exact h v
  | iri v | blank v => rfl
  | literal v dt lang =>
    obtain ⟨hsome, hlower⟩ := Bool.and_eq_true_iff.mp ht
    obtain ⟨x, hx⟩ := isSome_iff_exists.mp hsome
    change some (srlTermToKey _) = ((SrlTerm.literal v dt lang).ground).map _
    rw [hx, srlTermToKey_of_ground hx hlower]
    rfl
  | triple s p o => cases ht

theorem instantiate_eq (h : Represents b σ) (ht : t.plain = true) :
    instantiate t b = (t.value σ).map GroundTriple.keys := by
  rw [SrlTriple.plain, Bool.and_eq_true, Bool.and_eq_true] at ht
  rw [instantiate, SrlTriple.value, instantiateTerm_eq h ht.1.1, instantiateTerm_eq h ht.1.2,
    instantiateTerm_eq h ht.2]
  cases t.subject.value σ <;> cases t.predicate.value σ <;> cases t.object.value σ <;> rfl

theorem instantiate_eq_some {g : SrlGroundTriple} :
    instantiate t b = some g ↔ instantiateTerm t.subject b = some g.s ∧
      instantiateTerm t.predicate b = some g.p ∧ instantiateTerm t.object b = some g.o := by
  obtain ⟨s, p, o⟩ := g
  rw [instantiate]
  cases instantiateTerm t.subject b <;> cases instantiateTerm t.predicate b <;>
    cases instantiateTerm t.object b <;> simp

theorem map_key_eq_some {o : Option GroundTerm} : o.map key = some x.key ↔ o = some x := by
  rw [map_eq_some_iff]
  constructor
  · rintro ⟨y, hy, hkey⟩
    rw [hy, key_injective hkey]
  · rintro rfl
    exact ⟨x, rfl, rfl⟩

/-- What a match of one term does to the binding. -/
theorem matchTermKey_sound {t : SrlTerm} {k : Key} {b' : SrlBinding}
    (h : matchTermKey t k b = some b') :
    (∀ v y, b.lookup v = some y → b'.lookup v = some y) ∧ instantiateTerm t b' = some k ∧
      ∀ v, t ≠ .var v → b'.lookup v = b.lookup v := by
  cases t with
  | var w =>
    rw [matchTermKey] at h
    split at h
    · rename_i y hy
      rw [ite_none_right_eq_some, some.injEq] at h
      obtain ⟨rfl, rfl⟩ := h
      exact ⟨fun v y hy => hy, hy, fun v _ => rfl⟩
    · rename_i hw
      cases h
      have hother : ∀ v, v ≠ w → (b.insert w k).lookup v = b.lookup v :=
        fun v hne => lookup_insert_of_ne b hne
      refine ⟨fun v y hy => ?_, lookup_insert b, fun v hne => hother v fun heq => hne (by rw [heq])⟩
      rw [hother v]
      · exact hy
      · rintro rfl
        cases hw.symm.trans hy
  | iri v | blank v | literal v dt lang | triple s p o =>
    simp only [matchTermKey, ite_none_right_eq_some, some.injEq] at h
    obtain ⟨hk, rfl⟩ := h
    exact ⟨fun v y hy => hy, congrArg some hk, fun v _ => rfl⟩

/-- A term matches below a substitution that gives it the value. -/
theorem matchTermKey_complete {t : SrlTerm}
    (hb : ∀ v y, b.lookup v = some y → (σ v).map key = some y) (ht : t.plain = true)
    (hx : t.value σ = some x) :
    ∃ b', matchTermKey t x.key b = some b' ∧
      ∀ v y, b'.lookup v = some y → (σ v).map key = some y := by
  cases t with
  | var w =>
    have hσ : (σ w).map key = some x.key := map_key_eq_some.mpr hx
    rw [matchTermKey]
    cases hw : b.lookup w with
    | some y => exact ⟨b, if_pos (some.inj ((hb w y hw).symm.trans hσ)), hb⟩
    | none =>
      refine ⟨b.insert w x.key, rfl, fun v y hy => ?_⟩
      by_cases hv : v = w
      · rw [hv, lookup_insert] at hy
        rw [hv, ← hy]
        exact hσ
      · rw [lookup_insert_of_ne b hv] at hy
        exact hb v y hy
  | iri v | blank v | literal v dt lang =>
    refine ⟨b, if_pos (srlTermToKey_of_ground ?_ (SrlTerm.lowered_of_plain ht)), hb⟩
    exact hx
  | triple s p o => cases ht

/-- What a match of a pattern does to the binding. -/
theorem matchGroundTriple_sound {g : SrlGroundTriple} {b' : SrlBinding}
    (h : matchGroundTriple t g b = some b') :
    (∀ v y, b.lookup v = some y → b'.lookup v = some y) ∧ instantiate t b' = some g ∧
      ∀ v, ¬ t.Mentions v → b'.lookup v = b.lookup v := by
  obtain ⟨b₁, h₁, h⟩ := bind_eq_some_iff.mp h
  obtain ⟨b₂, h₂, h₃⟩ := bind_eq_some_iff.mp h
  obtain ⟨hkeep₁, hval₁, honly₁⟩ := matchTermKey_sound h₁
  obtain ⟨hkeep₂, hval₂, honly₂⟩ := matchTermKey_sound h₂
  obtain ⟨hkeep₃, hval₃, honly₃⟩ := matchTermKey_sound h₃
  -- A value found for one position stays when the next ones are matched.
  have hgrow : ∀ {t : SrlTerm} {k : Key} {c c' : SrlBinding},
      (∀ v y, c.lookup v = some y → c'.lookup v = some y) → instantiateTerm t c = some k →
        instantiateTerm t c' = some k := by
    intro t k c c' hkeep hval
    cases t with
    | var v => exact hkeep v k hval
    | iri v | blank v | literal v dt lang | triple s p o => exact hval
  refine ⟨fun v y hy => hkeep₃ v y (hkeep₂ v y (hkeep₁ v y hy)), ?_, fun v hnot => ?_⟩
  · exact instantiate_eq_some.mpr ⟨hgrow hkeep₃ (hgrow hkeep₂ hval₁), hgrow hkeep₃ hval₂, hval₃⟩
  · rw [SrlTriple.Mentions, not_or, not_or] at hnot
    rw [honly₃ v hnot.2.2, honly₂ v hnot.2.1, honly₁ v hnot.1]

/-- A variable of a pattern that has been filled in has a value. -/
theorem lookup_of_mentions {g : GroundTriple} {v : String} (h : instantiate t b = some g.keys)
    (hment : t.Mentions v) : ∃ x : GroundTerm, b.lookup v = some x.key := by
  obtain ⟨hs, hp, ho⟩ := instantiate_eq_some.mp h
  rcases hment with hv | hv | hv
  · exact ⟨g.s, by rwa [hv] at hs⟩
  · exact ⟨g.p, by rwa [hv] at hp⟩
  · exact ⟨g.o, by rwa [hv] at ho⟩

/-- A pattern matches the texts of a triple exactly as it matches the triple. -/
theorem matchGroundTriple_iff_matches (ht : t.plain = true) {g : GroundTriple}
    (hb : Represents b σ) :
    (∀ b', matchGroundTriple t g.keys b = some b' → ∃ σ', Matches t g σ σ' ∧ Represents b' σ') ∧
      ∀ σ', Matches t g σ σ' → ∃ b', matchGroundTriple t g.keys b = some b' ∧ Represents b' σ' := by
  have hplain := ht
  rw [SrlTriple.plain, Bool.and_eq_true, Bool.and_eq_true] at hplain
  constructor
  · intro b' h
    obtain ⟨hkeep, hval, honly⟩ := matchGroundTriple_sound h
    -- Every value of the new binding is a text of the old one or of the triple.
    have hvalue : ∀ v, ∃ o : Option GroundTerm, b'.lookup v = o.map key := by
      intro v
      by_cases hment : t.Mentions v
      · obtain ⟨x, hx⟩ := lookup_of_mentions hval hment
        exact ⟨some x, hx⟩
      · exact ⟨σ v, (honly v hment).trans (hb v)⟩
    choose σ' hσ' using hvalue
    refine ⟨σ', ⟨fun v x hx => ?_, ?_, fun v hv hment => ?_⟩, hσ'⟩
    · have hold := hkeep v x.key (by rw [hb v, hx]; rfl)
      rw [hσ' v] at hold
      exact map_key_eq_some.mp hold
    · rw [instantiate_eq hσ' ht] at hval
      obtain ⟨g', hg', hkeys⟩ := map_eq_some_iff.mp hval
      rw [hg', GroundTriple.keys_injective hkeys]
    · have hnone := honly v hment
      rw [hσ' v, hb v, hv] at hnone
      exact map_eq_none_iff.mp hnone
  · intro σ' hmatch
    obtain ⟨hs, hp, ho⟩ := SrlTriple.value_eq_some.mp hmatch.value
    -- Match the positions one after another below the final substitution.
    have hstart : ∀ v y, b.lookup v = some y → (σ' v).map key = some y := by
      intro v y hy
      rw [hb v] at hy
      obtain ⟨x, hx, hkey⟩ := map_eq_some_iff.mp hy
      rw [hmatch.keeps v x hx]
      exact congrArg some hkey
    obtain ⟨b₁, h₁, hle₁⟩ := matchTermKey_complete hstart hplain.1.1 hs
    obtain ⟨b₂, h₂, hle₂⟩ := matchTermKey_complete hle₁ hplain.1.2 hp
    obtain ⟨b₃, h₃, hle₃⟩ := matchTermKey_complete hle₂ hplain.2 ho
    have hall : matchGroundTriple t g.keys b = some b₃ := by
      exact bind_eq_some_iff.mpr ⟨b₁, h₁, bind_eq_some_iff.mpr ⟨b₂, h₂, h₃⟩⟩
    obtain ⟨-, hval, honly⟩ := matchGroundTriple_sound hall
    refine ⟨b₃, hall, fun v => ?_⟩
    cases hv : b₃.lookup v with
    | some y => exact (hle₃ v y hv).symm
    | none =>
      have hment : ¬ t.Mentions v := by
        intro hment
        obtain ⟨x, hx⟩ := lookup_of_mentions hval hment
        cases hv.symm.trans hx
      have hold := (hb v).symm.trans ((honly v hment).symm.trans hv)
      rw [hmatch.only v (map_eq_none_iff.mp hold) hment]
      rfl

/-! ## Bodies -/

mutual

/-- A plain pattern, or a `NOT` of such. -/
def SrlBodyElement.plain : SrlBodyElement → Bool
  | .triple t => t.plain
  | .not body => plainBody body
  | .filter _ => false
  | .bind _ _ => false

/-- A body of plain patterns, and of `NOT`s of such. -/
def plainBody : List SrlBodyElement → Bool
  | [] => true
  | elem :: body => elem.plain && plainBody body

end

/-- The list has the texts of the set's triples. -/
def StandsFor (triples : List SrlGroundTriple) (X : Set GroundTriple) : Prop :=
  ∀ gt, gt ∈ triples ↔ ∃ g ∈ X, g.keys = gt

/-- The bindings stand for the substitutions that satisfy something. -/
def Finds (found : List SrlBinding) (P : Subst → Prop) : Prop :=
  (∀ b ∈ found, ∃ σ, P σ ∧ Represents b σ) ∧ ∀ σ, P σ → ∃ b ∈ found, Represents b σ

section

variable {ex : SrlExpressions} {triples : List SrlGroundTriple} {X : Set GroundTriple}

/-- The triples that match a pattern. -/
theorem finds_triple (hX : StandsFor triples X) (ht : t.plain = true) (hb : Represents b σ) :
    Finds (triples.filterMap fun g => matchGroundTriple t g b)
      fun σ' => ∃ g ∈ X, Matches t g σ σ' := by
  constructor
  · intro b' hb'
    obtain ⟨gt, hgt, hmatch⟩ := mem_filterMap.mp hb'
    obtain ⟨g, hg, rfl⟩ := (hX gt).mp hgt
    obtain ⟨σ', hσ', hrep⟩ := (matchGroundTriple_iff_matches ht hb).1 b' hmatch
    exact ⟨σ', ⟨g, hg, hσ'⟩, hrep⟩
  · rintro σ' ⟨g, hg, hσ'⟩
    obtain ⟨b', hmatch, hrep⟩ := (matchGroundTriple_iff_matches ht hb).2 σ' hσ'
    exact ⟨b', mem_filterMap.mpr ⟨g.keys, (hX _).mpr ⟨g, hg, rfl⟩, hmatch⟩, hrep⟩

mutual

theorem finds_element (hX : StandsFor triples X) :
    ∀ (elem : SrlBodyElement), elem.plain = true → ∀ {b : SrlBinding} {σ : Subst},
      Represents b σ → Finds (matchElement ex triples elem b) (ElementHolds X X elem σ)
  | .triple t, ht, b, σ, hb => by
    have hholds : ElementHolds X X (.triple t) σ = fun σ' => ∃ g ∈ X, Matches t g σ σ' := by
      funext σ'
      rw [ElementHolds]
    rw [matchElement, hholds]
    exact finds_triple hX (by rwa [SrlBodyElement.plain] at ht) hb
  | .not body, ht, b, σ, hb => by
    rw [SrlBodyElement.plain] at ht
    have hfinds := finds_body hX body ht hb
    -- The body has a binding exactly if it has a substitution.
    have hempty : (matchElements ex triples body b).isEmpty = true ↔
        ∀ τ, ¬ BodyHolds X X body σ τ := by
      rw [List.isEmpty_iff]
      constructor
      · intro hnil τ hτ
        obtain ⟨b', hb', -⟩ := hfinds.2 τ hτ
        rw [hnil] at hb'
        cases hb'
      · intro hnone
        refine eq_nil_iff_forall_not_mem.mpr fun b' hb' => ?_
        obtain ⟨τ, hτ, -⟩ := hfinds.1 b' hb'
        exact hnone τ hτ
    rw [matchElement]
    by_cases hnone : ∀ τ, ¬ BodyHolds X X body σ τ
    · rw [if_pos (hempty.mpr hnone)]
      refine ⟨fun b' hb' => ?_, fun σ' hσ' => ?_⟩
      · rw [mem_singleton.mp hb']
        exact ⟨σ, by rw [ElementHolds]; exact ⟨rfl, hnone⟩, hb⟩
      · rw [ElementHolds] at hσ'
        rw [hσ'.1]
        exact ⟨b, mem_singleton.mpr rfl, hb⟩
    · rw [if_neg fun h => hnone (hempty.mp h)]
      refine ⟨nofun, fun σ' hσ' => ?_⟩
      rw [ElementHolds] at hσ'
      exact absurd hσ'.2 hnone
  | .filter expr, ht, b, σ, hb | .bind expr v, ht, b, σ, hb => by
    cases ht

/-- The bindings that satisfy a body stand for the substitutions that do. -/
theorem finds_body (hX : StandsFor triples X) :
    ∀ (body : List SrlBodyElement), plainBody body = true → ∀ {b : SrlBinding} {σ : Subst},
      Represents b σ → Finds (matchElements ex triples body b) (BodyHolds X X body σ)
  | [], _, b, σ, hb => by
    refine ⟨fun b' hb' => ?_, fun σ' hσ' => ?_⟩
    · rw [mem_singleton.mp hb']
      exact ⟨σ, by rw [BodyHolds], hb⟩
    · rw [BodyHolds] at hσ'
      rw [hσ']
      exact ⟨b, mem_singleton.mpr rfl, hb⟩
  | elem :: body, ht, b, σ, hb => by
    rw [plainBody, Bool.and_eq_true] at ht
    have helem := finds_element hX elem ht.1 hb
    refine ⟨fun b' hb' => ?_, fun σ' hσ' => ?_⟩
    · obtain ⟨b₁, hb₁, hb'⟩ := mem_flatMap.mp hb'
      obtain ⟨τ, hτ, hrep⟩ := helem.1 b₁ hb₁
      obtain ⟨σ', hσ', hrep'⟩ := (finds_body hX body ht.2 hrep).1 b' hb'
      exact ⟨σ', by rw [BodyHolds]; exact ⟨τ, hτ, hσ'⟩, hrep'⟩
    · rw [BodyHolds] at hσ'
      obtain ⟨τ, hτ, hσ'⟩ := hσ'
      obtain ⟨b₁, hb₁, hrep⟩ := helem.2 τ hτ
      obtain ⟨b', hb', hrep'⟩ := (finds_body hX body ht.2 hrep).2 σ' hσ'
      exact ⟨b', mem_flatMap.mpr ⟨b₁, hb₁, hb'⟩, hrep'⟩

end

/-! ## Rounds -/

/-- A rule whose head and body have only plain patterns. -/
def SrlRule.plain (rule : SrlRule) : Bool :=
  rule.head.all SrlTriple.plain && plainBody rule.body

/-- The new triples of a round are those the rules derive and that are not there yet. -/
theorem mem_newTriples_iff (ex : SrlExpressions) (hX : StandsFor triples X) {rules : List SrlRule}
    (hrules : ∀ rule ∈ rules, rule.plain = true) (gt : SrlGroundTriple) :
    gt ∈ newTriples ex triples rules ↔
      gt ∉ triples ∧ ∃ rule ∈ rules, ∃ g, Derives X X rule g ∧ g.keys = gt := by
  rw [newTriples, mem_dedup, mem_flatMap]
  constructor
  · rintro ⟨rule, hrule, hgt⟩
    obtain ⟨b, hb, hgt⟩ := mem_flatMap.mp hgt
    obtain ⟨h, hh, hinst⟩ := mem_filterMap.mp hgt
    obtain ⟨hinst, hnew⟩ := filter_eq_some_iff.mp hinst
    have hplain := hrules rule hrule
    rw [SrlRule.plain, Bool.and_eq_true, List.all_eq_true] at hplain
    obtain ⟨σ, hσ, hrep⟩ := (finds_body hX rule.body hplain.2 represents_empty).1 b hb
    rw [instantiate_eq hrep (hplain.1 h hh)] at hinst
    obtain ⟨g, hg, hkeys⟩ := map_eq_some_iff.mp hinst
    exact ⟨of_decide_eq_true hnew, rule, hrule, g, ⟨σ, hσ, h, hh, hg⟩, hkeys⟩
  · rintro ⟨hnew, rule, hrule, g, ⟨σ, hσ, h, hh, hg⟩, rfl⟩
    have hplain := hrules rule hrule
    rw [SrlRule.plain, Bool.and_eq_true, List.all_eq_true] at hplain
    obtain ⟨b, hb, hrep⟩ := (finds_body hX rule.body hplain.2 represents_empty).2 σ hσ
    refine ⟨rule, hrule, mem_flatMap.mpr ⟨b, hb, mem_filterMap.mpr ⟨h, hh, ?_⟩⟩⟩
    refine filter_eq_some_iff.mpr ⟨?_, decide_eq_true hnew⟩
    rw [instantiate_eq hrep (hplain.1 h hh), hg]
    rfl

end

end GoRdf
