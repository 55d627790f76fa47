import GoRdf.Theory.NTSyntax

/-!
# N-Quads Round Trip

The writer of `nq` promises to refuse what its parser would reject. It keeps that
promise for IRIs, for language tags and for the text of literals, but not for the
rest of a statement: it writes any blank node label, a triple term or a literal
where the grammar has neither, and a datatype that needs a language tag.

`Writable` says what the grammar has. Whatever the parser returns is writable, and a
writable statement is read back from the line written for it, so the two agree
exactly on the writable statements whose line the reader takes.

## Main definitions

* `Writable`: The statement is one of the grammar.
* `RoundTrips`: If the writer takes the statement, the parser reads it back.

## Theorems

* `writable_of_parseNQLine`: What the parser returns is writable.
* `parseNQLine_formatLine`: A writable statement is read back from its line.
* `roundTrips_iff`: When a statement survives the round trip.
-/

namespace GoRdf

open List

variable {text : List Char} {cs rest : List Char} {s : SubjectOf anyChar} {suffix line : List Char}
  {q : Statement} {o : TermOf anyChar} {t : TripleOf anyChar} {p : URIRefOf anyChar}

/-! ## Statements of the grammar -/

/-- An IRI, or a blank node with a label of the grammar. -/
def SubjectOf.writable : SubjectOf anyChar → Bool
  | .uri _ => true
  | .bnode b => validLabel b.value.toList
  | .triple _ _ _ => false

/-- A term that may stand in object position. -/
def TermOf.writable : TermOf anyChar → Bool
  | .subject (.triple s _ o) => s.writable && o.writable
  | .subject s => s.writable
  | .literal l => !l.kind.lacksTag

/-- A term that may name a graph. -/
def TermOf.namesGraph : TermOf anyChar → Bool
  | .subject s => s.writable
  | .literal _ => false

/-- The statement is one of the grammar. -/
def Writable (q : Statement) : Bool :=
  q.1.subject.writable && q.1.object.writable && (graphName q.2).all TermOf.namesGraph

mutual

/-- The subject with the blank nodes of a scope. -/
def SubjectOf.relabel (scope : String → BNodeOf anyChar) : SubjectOf anyChar → SubjectOf anyChar
  | .uri u => .uri u
  | .bnode b => .bnode (scope b.value)
  | .triple s p o => .triple (s.relabel scope) p (o.relabel scope)

/-- The term with the blank nodes of a scope. -/
def TermOf.relabel (scope : String → BNodeOf anyChar) : TermOf anyChar → TermOf anyChar
  | .subject s => .subject (s.relabel scope)
  | .literal l => .literal l

end

/-- The statement with the blank nodes of a scope. The default graph has no name. -/
def relabelStatement (scope : String → BNodeOf anyChar) (q : Statement) : Statement :=
  (⟨q.1.subject.relabel scope, q.1.predicate, q.1.object.relabel scope⟩,
    (graphName q.2).map (TermOf.relabel scope))

/-- If the writer takes the statement, then the parser takes the line and reads the same
    statement back, whatever nodes its document gets for its labels. -/
def RoundTrips (opts : LineOptions) (q : Statement) : Prop :=
  ∀ text, writeQuad q = .ok text →
    ∀ scope, parseNQuads scope opts text = .ok [relabelStatement scope q]

/-! ## The readers on what is written -/

theorem skipSpaces_space (cs : List Char) : skipSpaces (' ' :: cs) = skipSpaces cs :=
  rfl

theorem skipSpaces_skipSpaces (cs : List Char) : skipSpaces (skipSpaces cs) = skipSpaces cs :=
  dropWhile_idempotent ..

theorem skipSpaces_cons {c : Char} (h : c ≠ ' ' ∧ c ≠ '\t') (cs : List Char) :
    skipSpaces (c :: cs) = c :: cs :=
  dropWhile_cons_of_neg (by simp [h])

/-- A reader that skips blanks first. -/
theorem readSubject_skip (scope : String → BNodeOf anyChar) (cs : List Char) :
    readSubject scope (skipSpaces cs) = readSubject scope cs := by
  rw [readSubject, skipSpaces_skipSpaces, ← readSubject]

theorem readPredicate_skip (cs : List Char) : readPredicate (skipSpaces cs) = readPredicate cs := by
  rw [readPredicate, skipSpaces_skipSpaces, ← readPredicate]

theorem readObject_skip (scope : String → BNodeOf anyChar) (fuel : Nat) (cs : List Char) :
    readObject scope fuel (skipSpaces cs) = readObject scope fuel cs := by
  cases fuel with
  | zero => rfl
  | succ fuel => rw [readObject, skipSpaces_skipSpaces, ← readObject]

theorem readGraphLabel_skip (scope : String → BNodeOf anyChar) (cs : List Char) :
    readGraphLabel scope (skipSpaces cs) = readGraphLabel scope cs := by
  rw [readGraphLabel, skipSpaces_skipSpaces, ← readGraphLabel]

section

variable (scope : String → BNodeOf anyChar)

/-- A reader that hands on to `readURI` what starts with `<`. -/
theorem read_serializeIRI {β : Type} (read : List Char → Except ReadError (β × List Char))
    {place : ReadError → ReadError} (f : URIRefOf anyChar → β)
    (hread : ∀ {c}, isLetter c = true → ∀ cs, read ('<' :: c :: cs) =
      (readURI place ('<' :: c :: cs)).map fun r => (f r.1, r.2))
    (h : serializeIRI p.value = .ok text) (rest : List Char) :
    read (text ++ rest) = .ok (f p, rest) := by
  have huri := readURI_serializeIRI h place rest
  obtain ⟨c, ds, rfl, hc⟩ := serializeIRI_head h
  rw [cons_append, cons_append] at huri ⊢
  rw [hread hc, huri]
  rfl

/-- A reader that hands on to `readBNode` what follows `_:`. -/
theorem read_label {β : Type} (read : List Char → Except ReadError (β × List Char))
    (f : BNodeOf anyChar → β)
    (hread : ∀ cs, read ('_' :: ':' :: cs) = (readBNode scope cs).map fun r => (f r.1, r.2))
    {b : BNodeOf anyChar} (hb : validLabel b.value.toList = true) (rest : List Char) :
    read ('_' :: ':' :: b.value.toList ++ ' ' :: rest) = .ok (f (scope b.value), ' ' :: rest) := by
  rw [cons_append, cons_append, hread, readBNode_label hb, String.ofList_toList]
  rfl

/-- After `<` a letter, so this is an IRI and not a triple term. -/
theorem readObject_iri (fuel : Nat) {c : Char} (hc : isLetter c = true) (cs : List Char) :
    readObject scope (fuel + 1) ('<' :: c :: cs) =
      (readURI .object ('<' :: c :: cs)).map fun r => (r.1.toTerm, r.2) := by
  have hne : c ≠ '<' := by
    rintro rfl
    cases hc
  rw [readObject, skipSpaces_cons (by decide)]
  simp [hne]

theorem readObject_literal (fuel : Nat) (cs : List Char) :
    readObject scope (fuel + 1) ('\x22' :: cs) =
      (readLiteral cs).map fun r => (.literal r.1, r.2) :=
  rfl

/-- A subject is read back, with its blank nodes as the scope renames them. -/
theorem readSubject_serializeSubject
    (h : serializeSubject s = .ok text) (hs : s.writable = true) (rest : List Char) :
    readSubject scope (text ++ ' ' :: rest) = .ok (s.relabel scope, ' ' :: rest) := by
  cases s with
  | uri u => exact read_serializeIRI (readSubject scope) .uri (fun _ _ => rfl) h _
  | bnode b =>
    cases h
    exact read_label scope (readSubject scope) .bnode (fun _ => rfl) hs rest
  | triple s p o => exact absurd hs (by simp [SubjectOf.writable])

theorem readPredicate_serializeIRI (h : serializeIRI p.value = .ok text) (rest : List Char) :
    readPredicate (text ++ rest) = .ok (p, rest) := by
  have hread := readURI_serializeIRI h .predicate rest
  obtain ⟨c, ds, rfl, -⟩ := serializeIRI_head h
  rw [cons_append] at hread ⊢
  rw [readPredicate, skipSpaces_cons (by decide), hread]

theorem exists_of_bind_ok {ε α β : Type} {x : Except ε α} {f : α → Except ε β} {b : β}
    (h : x >>= f = .ok b) : ∃ a, x = .ok a ∧ f a = .ok b := by
  cases x with
  | error e => exact absurd h (by simp [bind, Except.bind])
  | ok a => exact ⟨a, rfl, h⟩

/-- The text of a triple term is put together from the texts of its parts. -/
theorem serializeSubject_triple (h : serializeSubject (.triple s p o) = .ok text) :
    ∃ ts tp tobj, serializeSubject s = .ok ts ∧ serializeIRI p.value = .ok tp ∧
      serializeTerm o = .ok tobj ∧
      text = ['<', '<', '(', ' '] ++ ts ++ ' ' :: tp ++ ' ' :: tobj ++ [' ', ')', '>', '>'] := by
  rw [serializeSubject] at h
  obtain ⟨ts, hs, h⟩ := exists_of_bind_ok h
  obtain ⟨tp, hp, h⟩ := exists_of_bind_ok h
  obtain ⟨tobj, ho, h⟩ := exists_of_bind_ok h
  exact ⟨ts, tp, tobj, hs, hp, ho, (Except.ok.inj h).symm⟩

/-- A triple term is read back if its parts are. -/
theorem readObject_triple {fuel : Nat} {ts tp tobj rest : List Char}
    (hs : ∀ r, readSubject scope (ts ++ ' ' :: r) = .ok (s, ' ' :: r))
    (hp : ∀ r, readPredicate (tp ++ r) = .ok (p, r))
    (ho : ∀ r, readObject scope fuel (tobj ++ ' ' :: r) = .ok (o, ' ' :: r)) :
    readObject scope (fuel + 1)
        (['<', '<', '(', ' '] ++ ts ++ ' ' :: tp ++ ' ' :: tobj ++ [' ', ')', '>', '>'] ++ rest) =
      .ok (.subject (.triple s p o), rest) := by
  simp only [append_assoc, cons_append, nil_append]
  change ((readSubject scope _).mapError _ >>= _) = _
  rw [← readSubject_skip, skipSpaces_space, readSubject_skip, hs]
  simp only [Except.mapError, bind, Except.bind]
  rw [← readPredicate_skip, skipSpaces_space, readPredicate_skip, hp]
  simp only
  rw [← readObject_skip, skipSpaces_space, readObject_skip, ho]
  rfl

/-- The nesting of the object is less than the length of its text, which is the fuel. -/
theorem readObject_serializeTerm {fuel : Nat}
    (h : serializeTerm o = .ok text) (ho : o.writable = true) (hfuel : text.length < fuel)
    (rest : List Char) :
    readObject scope fuel (text ++ ' ' :: rest) = .ok (o.relabel scope, ' ' :: rest) := by
  induction fuel generalizing o text rest with
  | zero => cases hfuel
  | succ fuel ih =>
    match o with
    | .literal l =>
      obtain ⟨body, rfl, hread⟩ := readLiteral_serializeLiteral h (Bool.not_eq_true' _ ▸ ho) rest
      rw [cons_append, readObject_literal, hread]
      rfl
    | .subject (.uri u) =>
      exact read_serializeIRI (readObject scope _) URIRefOf.toTerm (readObject_iri scope fuel) h _
    | .subject (.bnode b) =>
      cases h
      exact read_label scope (readObject scope _) (.subject <| .bnode ·) (fun _ => rfl) ho rest
    | .subject (.triple s p o) =>
      rw [TermOf.writable, Bool.and_eq_true] at ho
      obtain ⟨ts, tp, tobj, hs, hp, hto, rfl⟩ := serializeSubject_triple h
      have hshort : tobj.length < fuel := by
        simp only [length_append, length_cons, length_nil] at hfuel
        omega
      exact readObject_triple scope (readSubject_serializeSubject scope hs ho.1)
        (readPredicate_serializeIRI hp) (ih hto ho.2 hshort)

theorem readGraphLabel_serializeTerm {g : TermOf anyChar}
    (h : serializeTerm g = .ok text) (hg : g.namesGraph = true) (rest : List Char) :
    readGraphLabel scope (text ++ ' ' :: rest) = .ok (some (g.relabel scope), ' ' :: rest) := by
  match g with
  | .subject (.uri u) =>
    exact read_serializeIRI (readGraphLabel scope) (some ·.toTerm) (fun _ _ => rfl) h _
  | .subject (.bnode b) =>
    cases h
    exact read_label scope (readGraphLabel scope) (some <| .subject <| .bnode ·) (fun _ => rfl) hg
      rest

/-- What `formatLine` writes, part by part. -/
theorem formatLine_eq_ok (h : formatLine t suffix = .ok line) :
    ∃ ts tp tobj, serializeSubject t.subject = .ok ts ∧ serializeIRI t.predicate.value = .ok tp ∧
      serializeTerm t.object = .ok tobj ∧
      line = ts ++ ' ' :: (tp ++ ' ' :: (tobj ++ (suffix ++ [' ', '.']))) := by
  rw [formatLine] at h
  obtain ⟨ts, hs, h⟩ := exists_of_bind_ok h
  obtain ⟨tp, hp, h⟩ := exists_of_bind_ok h
  obtain ⟨tobj, ho, h⟩ := exists_of_bind_ok h
  exact ⟨ts, tp, tobj, hs, hp, ho, by simpa using (Except.ok.inj h).symm⟩

/-- The graph name and the dot, behind the object. -/
theorem readGraphLabel_suffix {graph : Option (TermOf anyChar)} {suffix : List Char}
    (h : graphSuffix graph = .ok suffix) (hg : (graphName graph).all TermOf.namesGraph = true) :
    ∃ rest, suffix ++ [' ', '.'] = ' ' :: rest ∧
      ∃ left, readGraphLabel scope rest =
          .ok ((graphName graph).map (TermOf.relabel scope), left) ∧
        skipSpaces left = ['.'] := by
  rw [graphSuffix] at h
  split at h
  · rename_i hname
    rw [Except.ok.injEq] at h
    refine ⟨['.'], by rw [← h]; rfl, ['.'], ?_, rfl⟩
    rw [hname]
    rfl
  · rename_i g hname
    rw [hname] at hg
    obtain ⟨text, hser, rfl⟩ := exists_of_map_ok h
    refine ⟨text ++ [' ', '.'], rfl, [' ', '.'], ?_, rfl⟩
    rw [hname, readGraphLabel_serializeTerm scope hser hg]
    rfl

/-- The round trip of one line. -/
theorem parseNQLine_formatLine
    (hq : Writable q = true) (hsuffix : graphSuffix q.2 = .ok suffix)
    (hline : formatLine q.1 suffix = .ok line) :
    parseNQLine scope line = .ok (relabelStatement scope q) := by
  rw [Writable, Bool.and_eq_true, Bool.and_eq_true] at hq
  obtain ⟨⟨hs, ho⟩, hg⟩ := hq
  obtain ⟨ts, tp, tobj, hts, htp, htobj, hparts⟩ := formatLine_eq_ok hline
  obtain ⟨rest, hrest, left, hread, hdot⟩ := readGraphLabel_suffix scope hsuffix hg
  rw [hrest] at hparts
  have hfuel : tobj.length < line.length + 1 := by
    rw [hparts]
    simp only [length_append, length_cons]
    omega
  rw [parseNQLine]
  generalize line.length + 1 = fuel at hfuel
  rw [hparts, readSubject_serializeSubject scope hts hs]
  simp only [bind, Except.bind]
  rw [skipSpaces_space, readPredicate_skip, readPredicate_serializeIRI htp]
  simp only
  rw [skipSpaces_space, readObject_skip, readObject_serializeTerm scope htobj ho hfuel]
  simp only
  rw [skipSpaces_space, readGraphLabel_skip, hread]
  simp only
  rw [hdot]
  rfl

end

/-! ## What the parser returns -/

/-- The label itself, as with `WithPreserveBlankNodeIDs`. An empty label is never read. -/
def preserveScope (label : String) : BNodeOf anyChar :=
  if h : label ≠ "" then ⟨label, all_anyChar label, h⟩
  else ⟨"b", rfl, by decide⟩

mutual

theorem SubjectOf.relabel_preserve : ∀ s : SubjectOf anyChar, s.relabel preserveScope = s
  | .uri u => rfl
  | .bnode b => by rw [SubjectOf.relabel, preserveScope, dif_pos b.labelled]
  | .triple s p o => by rw [SubjectOf.relabel, s.relabel_preserve, o.relabel_preserve]

theorem TermOf.relabel_preserve : ∀ o : TermOf anyChar, o.relabel preserveScope = o
  | .subject s => by rw [TermOf.relabel, s.relabel_preserve]
  | .literal l => rfl

end

/-- The dots at the end, which a label may not have, are left to what follows. -/
theorem validLabel_readBNode {b : BNodeOf anyChar}
    (h : readBNode preserveScope cs = .ok (b, rest)) : validLabel b.value.toList = true := by
  obtain ⟨label, hlabel, rfl⟩ := validLabel_of_readBNode h
  have hne : String.ofList label ≠ "" := by
    intro hempty
    rw [String.ofList_eq_empty_iff] at hempty
    rw [hempty] at hlabel
    cases hlabel
  rw [preserveScope, dif_pos hne, String.toList_ofList]
  exact hlabel

theorem of_mapError_ok {ε α : Type} {f : ε → ε} {x : Except ε α} {a : α}
    (h : x.mapError f = .ok a) : x = .ok a := by
  cases x with
  | error e => exact absurd h (by simp [Except.mapError])
  | ok b => exact congrArg Except.ok (Except.ok.inj h)

theorem writable_of_readSubject
    (h : readSubject preserveScope cs = .ok (s, rest)) : s.writable = true := by
  rw [readSubject] at h
  split at h
  · cases h
  · obtain ⟨_, -, ⟨⟩⟩ := exists_of_map_ok h
    rfl
  · obtain ⟨_, hread, ⟨⟩⟩ := exists_of_map_ok h
    exact validLabel_readBNode hread
  · cases h

theorem namesGraph_of_readGraphLabel {g : Option (TermOf anyChar)}
    (h : readGraphLabel preserveScope cs = .ok (g, rest)) : g.all TermOf.namesGraph = true := by
  rw [readGraphLabel] at h
  split at h
  · cases h
    rfl
  · cases h
    rfl
  · obtain ⟨_, -, ⟨⟩⟩ := exists_of_map_ok h
    rfl
  · obtain ⟨_, hread, ⟨⟩⟩ := exists_of_map_ok h
    exact validLabel_readBNode hread
  · cases h

theorem tagged_of_readLiteral {l : LiteralOf anyChar}
    (h : readLiteral cs = .ok (l, rest)) : l.kind.lacksTag = false := by
  obtain ⟨r, -, h⟩ := exists_of_bind_ok h
  obtain ⟨r', -, h⟩ := exists_of_bind_ok h
  dsimp only at h
  split_ifs at h with htag
  cases h
  exact Bool.not_eq_true _ ▸ htag

/-- What was read can be written again: the reader accepts no more than the writer does. -/
theorem writable_of_readObject {fuel : Nat}
    (h : readObject preserveScope fuel cs = .ok (o, rest)) : o.writable = true := by
  induction fuel generalizing cs o rest with
  | zero => exact absurd h (by simp [readObject])
  | succ fuel ih =>
    rw [readObject] at h
    split at h
    · cases h
    · -- a triple term: its subject is no triple term, its object may be one
      obtain ⟨_, -, h⟩ := exists_of_bind_ok h
      obtain ⟨s, hs, h⟩ := exists_of_bind_ok h
      obtain ⟨p, -, h⟩ := exists_of_bind_ok h
      obtain ⟨o', ho, h⟩ := exists_of_bind_ok h
      obtain ⟨_, -, h⟩ := exists_of_bind_ok h
      split at h
      · rw [← (Prod.mk.inj (Except.ok.inj h)).1, TermOf.writable, Bool.and_eq_true]
        exact ⟨writable_of_readSubject (of_mapError_ok hs), ih (of_mapError_ok ho)⟩
      · cases h
    · obtain ⟨_, -, ⟨⟩⟩ := exists_of_map_ok h
      rfl
    · obtain ⟨_, hread, ⟨⟩⟩ := exists_of_map_ok h
      exact validLabel_readBNode hread
    · obtain ⟨_, hread, ⟨⟩⟩ := exists_of_map_ok h
      rw [TermOf.writable, tagged_of_readLiteral hread]
      rfl
    · cases h

theorem writable_of_parseNQLine {line : List Char}
    (h : parseNQLine preserveScope line = .ok q) : Writable q = true := by
  obtain ⟨s, hs, h⟩ := exists_of_bind_ok h
  obtain ⟨p, -, h⟩ := exists_of_bind_ok h
  obtain ⟨o, ho, h⟩ := exists_of_bind_ok h
  obtain ⟨g, hg, h⟩ := exists_of_bind_ok h
  obtain ⟨_, -, h⟩ := exists_of_bind_ok h
  have hnames := namesGraph_of_readGraphLabel hg
  have hgraph : (graphName g.1).all TermOf.namesGraph = true := by
    rw [graphName]
    split
    · rfl
    · exact hnames
  rw [← Except.ok.inj h, Writable, Bool.and_eq_true, Bool.and_eq_true]
  exact ⟨⟨writable_of_readSubject hs, writable_of_readObject ho⟩, hgraph⟩

/-- Blank lines and comments give no statement, so each comes from a line that was read. -/
theorem writable_of_parseLines {opts : LineOptions} {lines : List (List Char)}
    {qs : List Statement} (h : parseLines preserveScope opts lines = .ok qs) :
    ∀ q ∈ qs, Writable q = true := by
  induction lines generalizing qs with
  | nil =>
    cases h
    simp
  | cons raw lines ih =>
    rw [parseLines] at h
    split at h
    · split at h
      · exact ih h
      · split at h
        · exact ih h
        · obtain ⟨q, hq, h⟩ := exists_of_bind_ok h
          obtain ⟨qs', hqs, h⟩ := exists_of_bind_ok h
          cases h
          rintro q' (_ | ⟨_, hmem⟩)
          · exact writable_of_parseNQLine hq
          · exact ih hqs q' hmem
    · cases h

/-! ## Lines and documents -/

theorem newline_notMem_padHex (width n : Nat) : '\n' ∉ padHex width n :=
  fun h => absurd (padHex_plain h) (by decide)

/-- Line breaks are escaped, so that a statement stays on one line. -/
theorem newline_notMem_escapeString (cs : List Char) : '\n' ∉ escapeString cs := by
  rw [escapeString_eq]
  intro h
  obtain ⟨c, -, hc⟩ := mem_flatMap.mp h
  unfold escapeStringChar at hc
  have hpad := newline_notMem_padHex
  split_ifs at hc with hslash hquote hn
  all_goals simp [hpad] at hc
  exact hn hc.symm

/-- An IRI with a line break in it is refused before anything is escaped. -/
theorem newline_notMem_serializeIRI {iri : String}
    (h : serializeIRI iri = .ok text) : '\n' ∉ text := by
  obtain ⟨hvalid, -, rfl⟩ := serializeIRI_eq_ok.mp h
  intro hmem
  rw [escapeIRI_eq, cons_append, mem_cons, mem_append] at hmem
  rcases hmem with hmem | hmem | hmem
  · cases hmem
  · obtain ⟨c, hc, hmem⟩ := mem_flatMap.mp hmem
    have hok : iriChar c = true := all_eq_true.mp hvalid c hc
    rw [escapeIRIChar_of_iriChar hok] at hmem
    split at hmem
    · simp [newline_notMem_padHex] at hmem
    · rw [← mem_singleton.mp hmem] at hok
      exact nomatch hok
  · exact nomatch hmem

theorem newline_notMem_label {label : List Char} (h : validLabel label = true) : '\n' ∉ label := by
  cases label with
  | nil => simp
  | cons c cs =>
    rw [validLabel, Bool.and_eq_true, Bool.and_eq_true] at h
    rintro (_ | ⟨_, hmem⟩)
    · exact absurd h.1.1 (by decide)
    · exact absurd (all_eq_true.mp h.1.2 _ hmem) (by decide)

theorem newline_notMem_tagText (tag : LangTag) (dir : Option Direction) : '\n' ∉ tagText tag dir :=
  fun h => absurd (mem_tagText h) (by decide)

theorem newline_notMem_serializeLiteral {l : LiteralOf anyChar}
    (h : serializeLiteral l = .ok text) : '\n' ∉ text := by
  have hquoted := newline_notMem_escapeString l.lexical.toList
  obtain ⟨lexical, kind⟩ := l
  cases kind with
  | typed dt named =>
    simp only [serializeLiteral] at h
    split_ifs at h
    · cases h
      simpa using hquoted
    · split at h
      · rename_i iri hiri
        have := newline_notMem_serializeIRI hiri
        cases h
        simpa [this] using hquoted
      · cases h
  | lang tag =>
    have htag := newline_notMem_tagText tag none
    cases h
    simpa [tagText] using ⟨hquoted, htag⟩
  | dirLang tag dir =>
    have htag := newline_notMem_tagText tag (some dir)
    cases h
    simp [tagText] at htag
    simpa using ⟨hquoted, htag⟩

theorem newline_notMem_serializeSubject
    (h : serializeSubject s = .ok text) (hs : s.writable = true) : '\n' ∉ text := by
  cases s with
  | uri u => exact newline_notMem_serializeIRI h
  | bnode b =>
    cases h
    simpa using newline_notMem_label hs
  | triple s p o => exact absurd hs (by simp [SubjectOf.writable])

theorem newline_notMem_serializeTerm : ∀ {o : TermOf anyChar} {text : List Char},
    serializeTerm o = .ok text → o.writable = true → '\n' ∉ text
  | .literal l, _, h, _ => newline_notMem_serializeLiteral h
  | .subject (.uri u), _, h, _ => newline_notMem_serializeIRI h
  | .subject (.bnode b), _, h, ho => newline_notMem_serializeSubject h ho
  | .subject (.triple s p o), _, h, ho => by
    rw [serializeTerm] at h
    rw [TermOf.writable, Bool.and_eq_true] at ho
    obtain ⟨ts, tp, tobj, hs, hp, hto, rfl⟩ := serializeSubject_triple h
    have hsub := newline_notMem_serializeSubject hs ho.1
    have hpred := newline_notMem_serializeIRI hp
    have hobj := newline_notMem_serializeTerm hto ho.2
    simp [hsub, hpred, hobj]

/-- What `Write` writes is a line and its newline. -/
theorem writeQuad_eq_ok (h : writeQuad q = .ok text) :
    ∃ suffix line, graphSuffix q.2 = .ok suffix ∧ formatLine q.1 suffix = .ok line ∧
      text = line ++ ['\n'] := by
  obtain ⟨suffix, hsuffix, h⟩ := exists_of_bind_ok h
  obtain ⟨line, hline, h⟩ := exists_of_bind_ok h
  exact ⟨suffix, line, hsuffix, hline, (Except.ok.inj h).symm⟩

theorem newline_notMem_graphSuffix {graph : Option (TermOf anyChar)} {suffix : List Char}
    (h : graphSuffix graph = .ok suffix) (hg : (graphName graph).all TermOf.namesGraph = true) :
    '\n' ∉ suffix := by
  rw [graphSuffix] at h
  split at h
  · cases h
    simp
  · rename_i g hname
    rw [hname] at hg
    obtain ⟨text, htext, rfl⟩ := exists_of_map_ok h
    match g with
    | .subject s => simpa using newline_notMem_serializeSubject htext hg

/-- A statement is one line, so that the document splits where it was joined. -/
theorem newline_notMem_line (hq : Writable q = true)
    (hsuffix : graphSuffix q.2 = .ok suffix) (hline : formatLine q.1 suffix = .ok line) :
    '\n' ∉ line := by
  rw [Writable, Bool.and_eq_true, Bool.and_eq_true] at hq
  obtain ⟨ts, tp, tobj, hts, htp, htobj, rfl⟩ := formatLine_eq_ok hline
  have hsub := newline_notMem_serializeSubject hts hq.1.1
  have hpred := newline_notMem_serializeIRI htp
  have hobj := newline_notMem_serializeTerm htobj hq.1.2
  have hgraph := newline_notMem_graphSuffix hsuffix hq.2
  simp [hsub, hpred, hobj, hgraph]

/-- A line starts with its subject and ends with its dot, so that nothing is trimmed. -/
theorem trimSpace_line {c : Char} (hc : isSpace c = false) (cs : List Char) :
    trimSpace (c :: cs ++ ['.']) = c :: cs ++ ['.'] := by
  rw [trimSpace, cons_append, dropWhile_cons_of_neg (by simp [hc]), ← cons_append,
    reverse_append, reverse_singleton, singleton_append,
    dropWhile_cons_of_neg (by decide), reverse_cons, reverse_reverse]

theorem serializeSubject_head
    (h : serializeSubject s = .ok text) : ∃ c ds, text = c :: ds ∧ (c = '<' ∨ c = '_') := by
  cases s with
  | uri u =>
    obtain ⟨c, ds, rfl, -⟩ := serializeIRI_head h
    exact ⟨'<', c :: ds, rfl, .inl rfl⟩
  | bnode b => exact ⟨'_', ':' :: b.value.toList, (Except.ok.inj h).symm, .inr rfl⟩
  | triple s p o =>
    obtain ⟨ts, tp, tobj, -, -, -, rfl⟩ := serializeSubject_triple h
    exact ⟨'<', _, rfl, .inl rfl⟩

/-- A line is neither blank nor a comment, so it is not skipped. -/
theorem formatLine_shape (h : formatLine t suffix = .ok line) :
    ∃ c cs, line = c :: cs ++ ['.'] ∧ (c = '<' ∨ c = '_') := by
  obtain ⟨ts, tp, tobj, hts, -, -, rfl⟩ := formatLine_eq_ok h
  obtain ⟨c, ds, rfl, hc⟩ := serializeSubject_head hts
  refine ⟨c, ds ++ ' ' :: (tp ++ ' ' :: (tobj ++ (suffix ++ [' ']))), ?_, hc⟩
  simp

section

variable (scope : String → BNodeOf anyChar) (opts : LineOptions)

/-- A line that was written, at the start of a document. -/
theorem parseNQuads_line
    (hline : formatLine t suffix = .ok line) (hnl : '\n' ∉ line) (rest : List Char) :
    parseNQuads scope opts (line ++ '\n' :: rest) =
      if opts.fits line then do
        let q ← parseNQLine scope line
        let qs ← parseNQuads scope opts rest
        return q :: qs
      else .error (.lineTooLong opts.limit) := by
  have hsplit : (line ++ '\n' :: rest).splitOn '\n' = line :: rest.splitOn '\n' := by
    refine splitOnP_append_cons_of_forall_mem (fun c hc => ?_) '\n' (by simp) rest
    rw [beq_eq_false_iff_ne]
    rintro rfl
    exact hnl hc
  obtain ⟨c, cs, rfl, hc⟩ := formatLine_shape hline
  have hspace : isSpace c = false := by
    rcases hc with rfl | rfl <;> decide
  have hcomment : c ≠ '#' := by
    rcases hc with rfl | rfl <;> decide
  rw [parseNQuads, hsplit, parseLines, trimSpace_line hspace, cons_append]
  dsimp only
  rw [if_neg hcomment, ← parseNQuads]

theorem parseNQuads_nil : parseNQuads scope opts [] = .ok [] := by
  have hfits : opts.fits [] = true := by
    rw [LineOptions.fits, Bool.or_eq_true, decide_eq_true_eq]
    exact .inr (lt_of_lt_of_le (by decide) (le_max_left _ _))
  rw [parseNQuads, splitOn_nil, parseLines, if_pos hfits]
  rfl

/-- The line of a writable statement, at the start of a document. -/
theorem parseNQuads_writeQuad {line : List Char}
    (h : writeQuad q = .ok (line ++ ['\n'])) (hq : Writable q = true)
    (hfits : opts.fits line = true) (rest : List Char) :
    parseNQuads scope opts (line ++ '\n' :: rest) = (do
      let qs ← parseNQuads scope opts rest
      return relabelStatement scope q :: qs) := by
  obtain ⟨suffix, line', hsuffix, hline, heq⟩ := writeQuad_eq_ok h
  obtain rfl : line = line' := append_cancel_right heq
  rw [parseNQuads_line scope opts hline (newline_notMem_line hq hsuffix hline), if_pos hfits,
    parseNQLine_formatLine scope hq hsuffix hline]
  rfl

/-- Statements written one after the other are read back one after the other, with one
    scope for all their labels. -/
theorem parseNQuads_writeQuads {qs : List Statement}
    (h : writeQuads qs = .ok text) (hqs : ∀ q ∈ qs, Writable q = true)
    (hfits : ∀ q ∈ qs, ∀ line, writeQuad q = .ok (line ++ ['\n']) → opts.fits line = true) :
    parseNQuads scope opts text = .ok (qs.map (relabelStatement scope)) := by
  induction qs generalizing text with
  | nil =>
    rw [← Except.ok.inj h, parseNQuads_nil]
    rfl
  | cons q qs ih =>
    obtain ⟨t, hq, h⟩ := exists_of_bind_ok h
    obtain ⟨rest, hrest, h⟩ := exists_of_bind_ok h
    obtain ⟨-, line, -, -, rfl⟩ := writeQuad_eq_ok hq
    have hread := ih hrest (fun q' hq' => hqs q' (by simp [hq']))
      (fun q' hq' => hfits q' (by simp [hq']))
    rw [← Except.ok.inj h, append_assoc, singleton_append,
      parseNQuads_writeQuad scope opts hq (hqs q (by simp)) (hfits q (by simp) line hq), hread]
    rfl

end

/-- A node related to itself. -/
def loopTriple : TripleOf anyChar :=
  ⟨.bnode ⟨"b", rfl, by decide⟩, ⟨"urn:p", rfl⟩, .subject (.bnode ⟨"b", rfl, by decide⟩)⟩

theorem parseNQuads_two_graphs :
    parseNQuads preserveScope ⟨0, true⟩ "_:b <urn:p> _:b .\n_:b <urn:p> _:b <urn:g> .\n".toList =
      .ok ([(loopTriple, none), (loopTriple, some (.subject (.uri ⟨"urn:g", rfl⟩)))].map
        (relabelStatement preserveScope)) :=
  parseNQuads_writeQuads _ _ (by decide +kernel) (by decide +kernel) fun _ _ _ _ => rfl

/-! ## The round trip -/

theorem relabelStatement_preserve (q : Statement) :
    relabelStatement preserveScope q = (q.1, graphName q.2) := by
  have hgraph : (graphName q.2).map (TermOf.relabel preserveScope) = graphName q.2 := by
    rw [funext TermOf.relabel_preserve, Option.map_id']
  rw [relabelStatement, hgraph, SubjectOf.relabel_preserve, TermOf.relabel_preserve]

/-- A statement that is read back is one the parser returns. -/
theorem writable_of_roundTrips {opts : LineOptions}
    (h : RoundTrips opts q) (htext : writeQuad q = .ok text) : Writable q = true := by
  have hread := h text htext preserveScope
  have hw := writable_of_parseLines hread _ (mem_singleton.mpr rfl)
  rw [relabelStatement_preserve, Writable, graphName_graphName] at hw
  exact hw

/-- The writer and the parser agree on a statement exactly if it is refused, or if it is one
    of the grammar and its line is not too long for the parser. -/
theorem roundTrips_iff (opts : LineOptions) (q : Statement) :
    RoundTrips opts q ↔
      ∀ line, writeQuad q = .ok (line ++ ['\n']) → Writable q = true ∧ opts.fits line = true := by
  constructor
  · intro h line hline
    have hq := writable_of_roundTrips h hline
    refine ⟨hq, ?_⟩
    -- the parser did take the line, so it was not too long
    obtain ⟨suffix, line', hsuffix, hformat, heq⟩ := writeQuad_eq_ok hline
    obtain rfl : line = line' := append_cancel_right heq
    have hread := h _ hline preserveScope
    rw [parseNQuads_line preserveScope opts hformat (newline_notMem_line hq hsuffix hformat)]
      at hread
    by_contra hfits
    rw [if_neg hfits] at hread
    cases hread
  · intro h text htext scope
    obtain ⟨-, line, -, -, rfl⟩ := writeQuad_eq_ok htext
    obtain ⟨hq, hfits⟩ := h line htext
    rw [parseNQuads_writeQuad scope opts htext hq hfits, parseNQuads_nil]
    rfl

/-- A blank node whose label ends in a dot, as object. -/
def dottedStatement : Statement :=
  (⟨.uri ⟨"urn:s", rfl⟩, ⟨"urn:p", rfl⟩, .subject (.bnode ⟨"a.", rfl, by decide⟩)⟩, none)

/-- The writer takes the label, and the parser reads the node `a` back. -/
theorem dottedStatement_merged :
    writeQuad dottedStatement = .ok "<urn:s> <urn:p> _:a. .\n".toList ∧
      parseNQuads preserveScope ⟨0, false⟩ "<urn:s> <urn:p> _:a. .\n".toList =
        .ok [(⟨.uri ⟨"urn:s", rfl⟩, ⟨"urn:p", rfl⟩,
          .subject (.bnode ⟨"a", rfl, by decide⟩)⟩, none)] ∧
      ¬RoundTrips ⟨0, false⟩ dottedStatement := by
  have hwrite : writeQuad dottedStatement = .ok "<urn:s> <urn:p> _:a. .\n".toList := by
    decide +kernel
  refine ⟨hwrite, by decide +kernel, fun h => ?_⟩
  exact absurd (writable_of_roundTrips h hwrite) (by decide)

end GoRdf
