import GoRdf.Core.Namespaces

/-!
# The Two Directions of a Namespace

Each direction keeps the last `Bind` of its own key. The prefix of a namespace is the one
of the last `Bind` of that namespace, and nothing takes it back when the prefix is bound
again, so the two directions are inverse exactly when that does not happen. For the same
reason a name that a manager gives, from its cache or not, may expand to another IRI. It
does as soon as a call of `Bind` gives another namespace to a prefix that names in use are
looked up under.

## Main definitions

* `Namespaces.Inverse`: The prefix of a namespace leads back to it.
* `PrefixesStay`: A prefix is not bound again after the last `Bind` of its namespace.
* `NSManager.Expands`: The names that a manager gives expand to what it is asked for.
* `NSManager.KeepsAll`: No call of `Bind` takes a namespace from a name in use.

## Theorems

* `namespacesOf_eq`: The three stores answer alike.
* `inverse_iff`: When the directions are inverse.
* `NSManager.step_coherent_iff`: The step that breaks a name is the one that does not keep it.
* `NSManager.expands_iff_keepsAll`: When the names expand at every moment of a run.
-/

namespace GoRdf

open Lib List Function Finmap

variable {binds : List (Key × Key)} {pfx ns : Key}

/-- Whenever `Prefix` answers with a prefix, `Namespace` leads back. -/
def Namespaces.Inverse (n : Namespaces) : Prop :=
  ∀ ns pfx, n.prefixFor ns = some pfx → n.namespaceOf pfx = some ns

/-- After the last `Bind` of a namespace, its prefix is not bound again. -/
def PrefixesStay (binds : List (Key × Key)) : Prop :=
  ∀ before pfx ns after, binds = before ++ (pfx, ns) :: after →
    ns ∉ after.map Prod.snd → pfx ∉ after.map Prod.fst

/-! ## What the stores answer -/

theorem NamespaceMaps.read_bind (m : NamespaceMaps) (pfx ns : Key) :
    (m.bind pfx ns).read.namespaceOf = update m.read.namespaceOf pfx (some ns) ∧
      (m.bind pfx ns).read.prefixFor = update m.read.prefixFor ns (some pfx) := by
  have hinsert : ∀ (m : GoMap Key) (k v : Key),
      (m.insert k v).lookup = update m.lookup k (some v) := by
    intro m k v
    funext k'
    by_cases hk : k' = k
    · rw [hk, AList.lookup_insert, update_self]
    · rw [AList.lookup_insert_ne hk, update_of_ne hk]
  exact ⟨hinsert _ _ _, hinsert _ _ _⟩

theorem BadgerStore.read_bind (kv : BadgerStore) (pfx ns : Key) :
    (kv.bind pfx ns).readNamespaces.namespaceOf =
        update kv.readNamespaces.namespaceOf pfx (some ns) ∧
      (kv.bind pfx ns).readNamespaces.prefixFor =
        update kv.readNamespaces.prefixFor ns (some pfx) := by
  -- The letters keep the two directions apart.
  have hkeys : ∀ a b, nsKey a ≠ nuKey b := fun a b h => absurd (List.cons.inj h).1 (by decide)
  constructor <;> funext k <;> dsimp only [BadgerStore.readNamespaces, BadgerStore.bind]
  · rw [lookup_insert_of_ne _ (hkeys k ns)]
    by_cases hk : k = pfx
    · rw [hk, lookup_insert, update_self]
    · rw [lookup_insert_of_ne _ (by simpa [nsKey] using hk), update_of_ne hk]
  · by_cases hk : k = ns
    · rw [hk, lookup_insert, update_self]
    · rw [lookup_insert_of_ne _ (by simpa [nuKey] using hk),
        lookup_insert_of_ne _ (hkeys pfx k).symm, update_of_ne hk]

/-- The value of the last entry with a key. -/
def lastValue (l : List (Key × Key)) (k : Key) : Option Key :=
  l.reverse.lookup k

theorem lastValue_append (l : List (Key × Key)) (e : Key × Key) :
    lastValue (l ++ [e]) = update (lastValue l) e.1 (some e.2) := by
  funext k
  rw [lastValue, reverse_append, reverse_singleton, singleton_append, lookup_cons]
  by_cases hk : k = e.1
  · simp [hk]
  · simp [hk, beq_false_of_ne hk, lastValue]

/-- The last `Bind` of a key counts, in every store and in both directions. -/
theorem namespacesOf_eq (binds : List (Key × Key)) (k : StoreKind) :
    (namespacesOf binds k).namespaceOf = lastValue binds ∧
      (namespacesOf binds k).prefixFor = lastValue (binds.map Prod.swap) := by
  induction binds using List.reverseRecOn with
  | nil => cases k <;> exact ⟨rfl, rfl⟩
  | append_singleton binds b ih =>
    rw [map_append, map_singleton, lastValue_append, lastValue_append, ← ih.1, ← ih.2]
    cases k with
    | memory | sparql =>
      rw [namespacesOf, foldl_append]
      exact NamespaceMaps.read_bind _ b.1 b.2
    | badger =>
      rw [namespacesOf, foldl_append]
      exact BadgerStore.read_bind _ b.1 b.2

/-- `Namespaces` lists what `Namespace` finds. -/
theorem mem_list_iff (binds : List (Key × Key)) (k : StoreKind) :
    (pfx, ns) ∈ (namespacesOf binds k).list ↔ (namespacesOf binds k).namespaceOf pfx = some ns := by
  have hmaps : ∀ m : NamespaceMaps, (pfx, ns) ∈ m.read.list ↔ m.read.namespaceOf pfx = some ns := by
    intro m
    dsimp only [NamespaceMaps.read]
    rw [mem_map, ← Option.mem_def, AList.mem_lookup_iff]
    constructor
    · rintro ⟨e, he, heq⟩
      rw [← (Prod.mk.inj heq).1, ← (Prod.mk.inj heq).2]
      exact he
    · exact fun h => ⟨_, h, rfl⟩
  cases k with
  | memory | sparql => exact hmaps _
  | badger =>
    dsimp only [namespacesOf, BadgerStore.readNamespaces]
    rw [mem_map]
    constructor
    · rintro ⟨e, he, heq⟩
      obtain ⟨hlook, hpre⟩ := mem_scan.mp he
      obtain ⟨r, hr⟩ := isPrefixOf_iff_prefix.mp hpre
      obtain ⟨rfl, rfl⟩ := Prod.mk.inj heq
      rw [← hlook, ← hr]
      rfl
    · intro h
      exact ⟨(nsKey pfx, ns), mem_scan.mpr ⟨h, rfl⟩, rfl⟩

/-! ## When the directions are inverse -/

/-- The last entry with a key, and where it is. -/
theorem lastValue_eq_some {l : List (Key × Key)} {k v : Key} :
    lastValue l k = some v ↔
      ∃ before after, l = before ++ (k, v) :: after ∧ k ∉ after.map Prod.fst := by
  rw [lastValue, List.lookup_eq_some_iff]
  constructor
  · rintro ⟨l₁, l₂, heq, hnot⟩
    refine ⟨l₂.reverse, l₁.reverse, ?_, ?_⟩
    · rw [← reverse_reverse l, heq]
      simp
    · intro hmem
      obtain ⟨e, he, rfl⟩ := mem_map.mp hmem
      simpa using hnot e (mem_reverse.mp he)
  · rintro ⟨before, after, rfl, hnot⟩
    refine ⟨after.reverse, before.reverse, by simp, fun e he => ?_⟩
    rw [bne_iff_ne]
    rintro rfl
    exact hnot (mem_map_of_mem (mem_reverse.mp he))

theorem lastValue_swap_eq_some :
    lastValue (binds.map Prod.swap) ns = some pfx ↔
      ∃ before after, binds = before ++ (pfx, ns) :: after ∧ ns ∉ after.map Prod.snd := by
  have hswap : ∀ l : List (Key × Key), (l.map Prod.swap).map Prod.swap = l := by simp
  rw [lastValue_eq_some]
  constructor
  · rintro ⟨before, after, heq, hnot⟩
    refine ⟨before.map Prod.swap, after.map Prod.swap, ?_, by simpa using hnot⟩
    rw [← hswap binds, heq]
    simp
  · rintro ⟨before, after, rfl, hnot⟩
    exact ⟨before.map Prod.swap, after.map Prod.swap, by simp, by simpa using hnot⟩

/-- In every store the prefix of a namespace leads back to it, after any calls of `Bind`,
    exactly when no prefix is bound again after the last `Bind` of its namespace. What
    `Namespaces` lists is found by `Namespace` in any case. -/
theorem inverse_iff (binds : List (Key × Key)) (k : StoreKind) :
    ((namespacesOf binds k).Inverse ↔ PrefixesStay binds) ∧
      ∀ e ∈ (namespacesOf binds k).list, (namespacesOf binds k).namespaceOf e.1 = some e.2 := by
  refine ⟨?_, fun e he => (mem_list_iff binds k).mp he⟩
  rw [Namespaces.Inverse, (namespacesOf_eq binds k).1, (namespacesOf_eq binds k).2]
  constructor
  · intro h before pfx ns after heq hlast
    obtain ⟨before', after', heq', hlast'⟩ :=
      lastValue_eq_some.mp (h ns pfx (lastValue_swap_eq_some.mpr ⟨before, after, heq, hlast⟩))
    -- The last `Bind` of the namespace and the last of the prefix are the same one.
    rcases append_eq_append_iff.mp (heq.symm.trans heq') with
      ⟨mid, -, hmid⟩ | ⟨mid, -, hmid⟩
    · cases mid with
      | nil =>
        rw [(List.cons.inj hmid).2]
        exact hlast'
      | cons e mid =>
        refine absurd ?_ hlast
        rw [(List.cons.inj hmid).2]
        simp
    · cases mid with
      | nil =>
        rw [← (List.cons.inj hmid).2]
        exact hlast'
      | cons e mid =>
        refine absurd ?_ hlast'
        rw [(List.cons.inj hmid).2]
        simp
  · intro h ns pfx hns
    obtain ⟨before, after, heq, hlast⟩ := lastValue_swap_eq_some.mp hns
    exact lastValue_eq_some.mpr ⟨before, after, heq, h before pfx ns after heq hlast⟩

/-- A prefix bound to one namespace and then to another. -/
theorem rebound_not_inverse : ¬ ∃ k, (namespacesOf [(['a'], ['x']), (['a'], ['y'])] k).Inverse := by
  rintro ⟨k, h⟩
  have hx := h ['x'] ['a'] (by rw [(namespacesOf_eq _ k).2]; decide)
  rw [(namespacesOf_eq _ k).1] at hx
  cases hx

/-! ## The names of a manager -/

theorem splitLast_append {sep : Char} {uri : Key} {parts : Key × Key}
    (h : splitLast sep uri = some parts) : parts.1 ++ parts.2 = uri := by
  rw [splitLast] at h
  split at h
  · cases h
    rw [rdropWhile, rtakeWhile, ← reverse_append, takeWhile_append_dropWhile, reverse_reverse]
  · cases h

theorem splitURI_append (uri : Key) : (splitURI uri).1 ++ (splitURI uri).2 = uri := by
  rw [splitURI]
  cases hparts : (splitLast '#' uri).or ((splitLast '/' uri).or (splitLast ':' uri)) with
  | none => rfl
  | some parts =>
    rw [Option.or_eq_some_iff, Option.or_eq_some_iff] at hparts
    rcases hparts with h | ⟨-, h | ⟨-, h⟩⟩ <;> exact splitLast_append h

/-- What has no separator goes to the end of the local name. -/
theorem splitURI_append_right (uri : Key) {l : Key} (hl : ∀ c ∈ l, c ≠ '#' ∧ c ≠ '/' ∧ c ≠ ':') :
    splitURI (uri ++ l) = ((splitURI uri).1, (splitURI uri).2 ++ l) := by
  have hsplit : ∀ sep : Char, (∀ c ∈ l, c ≠ sep) →
      splitLast sep (uri ++ l) =
        (splitLast sep uri).map fun parts => (parts.1, parts.2 ++ l) := by
    intro sep hsep
    have hmem : sep ∈ uri ++ l ↔ sep ∈ uri := by
      rw [mem_append, or_iff_left]
      exact fun h => hsep sep h rfl
    have hpos : ∀ c ∈ l.reverse, (c != sep) = true :=
      fun c hc => bne_iff_ne.mpr (hsep c (mem_reverse.mp hc))
    simp only [splitLast, hmem, rdropWhile, rtakeWhile, reverse_append,
      dropWhile_append_of_pos hpos, takeWhile_append_of_pos hpos, reverse_reverse]
    split <;> rfl
  rw [splitURI, hsplit '#' fun c hc => (hl c hc).1, hsplit '/' fun c hc => (hl c hc).2.1,
    hsplit ':' fun c hc => (hl c hc).2.2, splitURI]
  cases splitLast '#' uri <;> cases splitLast '/' uri <;> cases splitLast ':' uri <;> rfl

namespace NSManager

variable {m m' : NSManager} {override : Bool} {uri localName : Key}

/-- Whenever `QName` returns a name, `ExpandCURIE` of it returns the IRI. -/
def Expands (m : NSManager) : Prop :=
  ∀ uri name, (m.qname uri).1 = some name → (m.qname uri).2.expandCURIE name = some uri

/-! ## Expanding a name -/

/-- The prefix under which `ExpandCURIE` looks up a name that was given with a prefix: it
    splits the name at its first colon. -/
def curiePrefix (pfx : Key) : Key :=
  pfx.takeWhile (· != ':')

/-- What it takes for the beginning of the local name. -/
def curieRest (pfx : Key) : Key :=
  ((pfx ++ [':']).dropWhile (· != ':')).tail

/-- A name with the prefix is expanded with the namespace. -/
def Leads (m : NSManager) (pfx ns : Key) : Prop :=
  ∃ x, m.store.nsPrefix.lookup (curiePrefix pfx) = some x ∧ x ++ curieRest pfx = ns

theorem expandCURIE_append (m : NSManager) (pfx localName : Key) :
    m.expandCURIE (pfx ++ ':' :: localName) =
      (m.store.nsPrefix.lookup (curiePrefix pfx)).map (· ++ (curieRest pfx ++ localName)) := by
  have hsplit : (pfx ++ ':' :: localName).takeWhile (· != ':') = curiePrefix pfx ∧
      (pfx ++ ':' :: localName).dropWhile (· != ':') = ':' :: (curieRest pfx ++ localName) := by
    induction pfx with
    | nil => exact ⟨rfl, rfl⟩
    | cons c pfx ih =>
      by_cases hc : c = ':'
      · simp [curiePrefix, curieRest, hc]
      · simpa [curiePrefix, curieRest, hc] using ih
  rw [expandCURIE, hsplit.1, hsplit.2]

theorem expandCURIE_iff :
    m.expandCURIE (pfx ++ ':' :: localName) = some (ns ++ localName) ↔ m.Leads pfx ns := by
  rw [expandCURIE_append, Option.map_eq_some_iff]
  refine exists_congr fun x => and_congr_right fun _ => ?_
  rw [← append_assoc, append_cancel_right_eq]

theorem curiePrefix_eq_self_iff : curiePrefix pfx = pfx ↔ ':' ∉ pfx := by
  rw [curiePrefix, takeWhile_eq_self_iff]
  constructor
  · exact fun h hmem => absurd (h ':' hmem) (by decide)
  · exact fun h c hc => bne_iff_ne.mpr (ne_of_mem_of_not_mem hc h)

theorem curieRest_of_notMem (h : ':' ∉ pfx) : curieRest pfx = [] := by
  have hpfx : ∀ c ∈ pfx, (c != ':') = true :=
    fun c hc => bne_iff_ne.mpr (ne_of_mem_of_not_mem hc h)
  rw [curieRest, dropWhile_append_of_pos hpfx]
  rfl

theorem leads_bind (hstore : m'.store = m.store.bind pfx ns) {p n : Key} :
    m'.Leads p n ↔ if curiePrefix p = pfx then ns ++ curieRest p = n else m.Leads p n := by
  rw [Leads, hstore, NamespaceMaps.bind]
  split_ifs with hp
  · rw [hp, AList.lookup_insert]
    simp
  · rw [AList.lookup_insert_ne hp]
    rfl

/-! ## Names in use -/

/-- Some IRI is split at the end of this text. -/
def IsNamespace (ns : Key) : Prop :=
  ns ≠ [] ∧ ∃ uri, (splitURI uri).1 = ns

/-- The prefix and the namespace of a name that is still given after `Bind` of a namespace:
    to the IRIs of another namespace, or from what is left of the cache. -/
def InUse (m : NSManager) (bound pfx ns : Key) : Prop :=
  (ns ≠ bound ∧ IsNamespace ns ∧ m.store.nsURI.lookup ns = some pfx) ∨
    ∃ uri localName, ¬ bound <+: uri ∧ m.cache.lookup uri = some (pfx, ns, localName)

/-- A call of `Bind` that takes effect binds no prefix with a colon, unless the part before
    the colon happens to stand for what fits, and gives no other namespace to the prefix that
    a name in use is looked up under. -/
def Keeps (m : NSManager) : Call → Prop
  | .bind pfx ns override => (override = false ∧ (m.store.nsPrefix.lookup pfx).isSome = true) ∨
      ((IsNamespace ns → ':' ∈ pfx → m.Leads pfx ns) ∧
        ∀ p n, m.InUse ns p n → curiePrefix p = pfx → ns ++ curieRest p = n)
  | .computeQName _ => True

def KeepsAll : NSManager → List Call → Prop
  | _, [] => True
  | m, c :: calls => m.Keeps c ∧ (m.step c).KeepsAll calls

/-- The names that the manager has given, and those it would give, expand. -/
structure Coherent (m : NSManager) : Prop where
  leads : ∀ ns pfx, m.store.nsURI.lookup ns = some pfx → IsNamespace ns → m.Leads pfx ns
  cached : ∀ uri name, m.cache.lookup uri = some name → m.Leads name.1 name.2.1

/-- A cached name is one of its IRI, split. -/
def CacheSplits (m : NSManager) : Prop :=
  ∀ uri name, m.cache.lookup uri = some name → name.2 = splitURI uri ∧ name.2.1 ≠ []

/-- There is always an IRI of a namespace that is not in the cache. -/
theorem exists_uncached (m : NSManager) (h : IsNamespace ns) :
    ∃ uri, (splitURI uri).1 = ns ∧ m.cache.lookup uri = none := by
  obtain ⟨-, uri, rfl⟩ := h
  have hinj : Injective fun k => uri ++ replicate k 'n' := fun j k h => by
    simpa using congrArg length (append_cancel_left h)
  obtain ⟨_, ⟨k, rfl⟩, hk⟩ :=
    (Set.infinite_range_of_injective hinj).exists_notMem_finset m.cache.keys.toFinset
  refine ⟨uri ++ replicate k 'n', ?_, ?_⟩
  · rw [splitURI_append_right]
    intro c hc
    rw [eq_of_mem_replicate hc]
    decide
  · exact AList.lookup_eq_none.mpr fun hmem => hk (mem_toFinset.mpr hmem)

/-! ## One call -/

theorem lookup_forget (cache : GoMap (Key × Key × Key)) (ns uri : Key) :
    (cache.keys.foldl (fun cache u => if ns.isPrefixOf u then cache.erase u else cache)
      cache).lookup uri = if ns <+: uri then none else cache.lookup uri := by
  have hfold : ∀ (us : List Key) (c : GoMap (Key × Key × Key)),
      (us.foldl (fun cache u => if ns.isPrefixOf u then cache.erase u else cache) c).lookup uri =
        if ns <+: uri ∧ uri ∈ us then none else c.lookup uri := by
    intro us
    induction us with
    | nil => simp
    | cons u us ih =>
      intro c
      rw [foldl_cons, ih]
      by_cases hu : uri = u
      · subst hu
        by_cases hpre : ns <+: uri <;> simp [hpre, AList.lookup_erase]
      · have herase : (if ns.isPrefixOf u = true then c.erase u else c).lookup uri =
            c.lookup uri := by
          split
          · exact AList.lookup_erase_ne hu
          · rfl
        rw [herase]
        simp [hu]
  rw [hfold]
  by_cases hmem : uri ∈ cache.keys
  · simp [hmem]
  · rw [AList.lookup_eq_none.mpr hmem]
    simp

/-- A call of `Bind` that takes effect. -/
theorem Coherent.bind_iff (h : m.Coherent)
    (heffect : ¬ (override = false ∧ (m.store.nsPrefix.lookup pfx).isSome = true)) :
    (m.bind pfx ns override).Coherent ↔ m.Keeps (.bind pfx ns override) := by
  have hskip : ¬ ((!override && (m.store.nsPrefix.lookup pfx).isSome) = true) := by
    simpa using heffect
  rw [NSManager.bind, if_neg hskip, Keeps, or_iff_right heffect]
  -- Only the bound namespace and the cached names under it change, so the two lookups below are all
  -- that is needed of the new manager.
  generalize hm' : ({ m with
    store := m.store.bind pfx ns
    cache := m.cache.keys.foldl
      (fun cache uri => if ns.isPrefixOf uri then cache.erase uri else cache) m.cache } :
    NSManager) = m'
  have hcache : ∀ uri, m'.cache.lookup uri =
      if ns <+: uri then none else m.cache.lookup uri := by
    rw [← hm']
    exact lookup_forget m.cache ns
  have hstore : m'.store = m.store.bind pfx ns := by rw [← hm']
  have huri : ∀ n, m'.store.nsURI.lookup n =
      if n = ns then some pfx else m.store.nsURI.lookup n := by
    intro n
    rw [hstore, NamespaceMaps.bind]
    split_ifs with hn
    · rw [hn, AList.lookup_insert]
    · exact AList.lookup_insert_ne hn
  constructor
  · intro h'
    refine ⟨fun hspace hcolon => ?_, fun p n hused hp => ?_⟩
    · have hleads := h'.leads ns pfx (by rw [huri, if_pos rfl]) hspace
      rwa [leads_bind hstore, if_neg fun heq => curiePrefix_eq_self_iff.mp heq hcolon] at hleads
    · have hleads : m'.Leads p n := by
        rcases hused with ⟨hne, hspace, hn⟩ | ⟨uri, l, hpre, hname⟩
        · exact h'.leads n p (by rw [huri, if_neg hne, hn]) hspace
        · exact h'.cached uri (p, n, l) (by rw [hcache, if_neg hpre, hname])
      rwa [leads_bind hstore, if_pos hp] at hleads
  · rintro ⟨hown, hothers⟩
    -- What is in use and led to its namespace before still does, unless the new prefix takes it.
    have hkeep : ∀ p n, m.InUse ns p n → m.Leads p n → m'.Leads p n := by
      intro p n hused hleads
      rw [leads_bind hstore]
      split_ifs with hp
      · exact hothers p n hused hp
      · exact hleads
    refine ⟨fun n p hn hspace => ?_, fun uri name hname => ?_⟩
    · rw [huri] at hn
      split_ifs at hn with heq
      · subst heq
        cases hn
        rw [leads_bind hstore]
        by_cases hcolon : ':' ∈ pfx
        · rw [if_neg fun heq => curiePrefix_eq_self_iff.mp heq hcolon]
          exact hown hspace hcolon
        · rw [if_pos (curiePrefix_eq_self_iff.mpr hcolon), curieRest_of_notMem hcolon, append_nil]
      · exact hkeep p n (.inl ⟨heq, hspace, hn⟩) (h.leads n p hn hspace)
    · rw [hcache] at hname
      split_ifs at hname with hpre
      exact hkeep _ _ (.inr ⟨uri, _, hpre, hname⟩) (h.cached uri name hname)

theorem colon_notMem_autoPrefix (n : Nat) : ':' ∉ autoPrefix n := by
  intro hcolon
  simp only [autoPrefix, mem_cons, Char.reduceEq, false_or] at hcolon
  exact absurd (Nat.isDigit_of_mem_toDigits (by decide) (by decide) hcolon) (by decide)

theorem Coherent.generatePrefix (h : m.Coherent) (hspace : IsNamespace ns) :
    (m.generatePrefix ns).2.Coherent ∧
      (m.generatePrefix ns).2.Leads (m.generatePrefix ns).1 ns := by
  rw [NSManager.generatePrefix]
  cases hns : m.store.nsURI.lookup ns with
  | some pfx => exact ⟨h, h.leads ns pfx hns hspace⟩
  | none =>
    -- A number that has not been taken makes a prefix that no name is looked up under.
    have hfree := Nat.find_spec (exists_free m.store.nsPrefix m.genID)
    have hcolon := colon_notMem_autoPrefix
      (m.genID + 1 + Nat.find (exists_free m.store.nsPrefix m.genID))
    dsimp only
    generalize autoPrefix _ = auto at hfree hcolon ⊢
    generalize hm' : ({ m with
      store := m.store.bind auto ns
      genID := m.genID + 1 + Nat.find (exists_free m.store.nsPrefix m.genID) } :
      NSManager) = m'
    have hstore : m'.store = m.store.bind auto ns := by rw [← hm']
    have hauto : m'.Leads auto ns := by
      rw [leads_bind hstore, if_pos (curiePrefix_eq_self_iff.mpr hcolon),
        curieRest_of_notMem hcolon, append_nil]
    have hkeep : ∀ p n, m.Leads p n → m'.Leads p n := by
      intro p n hleads
      rw [leads_bind hstore, if_neg]
      · exact hleads
      · rintro rfl
        obtain ⟨x, hx, -⟩ := hleads
        rw [hfree] at hx
        cases hx
    refine ⟨⟨fun n p hn hn' => ?_, fun uri name hname => ?_⟩, hauto⟩
    · rw [hstore, NamespaceMaps.bind] at hn
      by_cases heq : n = ns
      · subst heq
        rw [AList.lookup_insert] at hn
        cases hn
        exact hauto
      · rw [AList.lookup_insert_ne heq] at hn
        exact hkeep p n (h.leads n p hn hn')
    · rw [← hm'] at hname
      exact hkeep _ _ (h.cached uri name hname)

/-- `ComputeQName` returns a name that expands, and keeps the others. -/
theorem Coherent.computeQName (h : m.Coherent) (hsplits : m.CacheSplits) (uri : Key) :
    (m.computeQName uri).2.Coherent ∧ ∀ name, (m.computeQName uri).1 = some name →
      (m.computeQName uri).2.Leads name.1 name.2.1 ∧ name.2.1 ++ name.2.2 = uri := by
  rw [NSManager.computeQName]
  cases hcached : m.cache.lookup uri with
  | some cached =>
    refine ⟨h, ?_⟩
    rintro _ ⟨⟩
    refine ⟨h.cached uri cached hcached, ?_⟩
    rw [(hsplits uri cached hcached).1, splitURI_append]
  | none =>
    dsimp only
    split
    · exact ⟨h, nofun⟩
    · rename_i hne
      obtain ⟨hm, hleads⟩ := h.generatePrefix ⟨hne, uri, rfl⟩
      refine ⟨⟨hm.leads, fun u name hlook => ?_⟩, ?_⟩
      · by_cases hu : u = uri
        · rw [hu, AList.lookup_insert] at hlook
          cases hlook
          exact hleads
        · rw [AList.lookup_insert_ne hu] at hlook
          exact hm.cached u name hlook
      · rintro _ ⟨⟩
        exact ⟨hleads, splitURI_append uri⟩

theorem CacheSplits.step (h : m.CacheSplits) (c : Call) : (m.step c).CacheSplits := by
  cases c with
  | bind pfx ns override =>
    intro uri name hname
    rw [NSManager.step, NSManager.bind] at hname
    split at hname
    · exact h uri name hname
    · -- Binding only drops names.
      rw [lookup_forget] at hname
      split_ifs at hname
      exact h uri name hname
  | computeQName uri =>
    intro u name hname
    rw [NSManager.step, NSManager.computeQName] at hname
    split at hname
    · exact h u name hname
    · dsimp only at hname
      split at hname
      · exact h u name hname
      · rename_i hne
        by_cases hu : u = uri
        · rw [hu, AList.lookup_insert] at hname
          cases hname
          exact ⟨by rw [hu], hne⟩
        · have hcache : (m.generatePrefix (splitURI uri).1).2.cache = m.cache := by
            rw [NSManager.generatePrefix]
            split <;> rfl
          rw [AList.lookup_insert_ne hu, hcache] at hname
          exact h u name hname

/-- One step, from a state in which the names expand. -/
theorem step_coherent_iff (h : m.Coherent) (hsplits : m.CacheSplits) (c : Call) :
    (m.step c).Coherent ↔ m.Keeps c := by
  cases c with
  | computeQName uri => exact iff_of_true (h.computeQName hsplits uri).1 trivial
  | bind pfx ns override =>
    by_cases hskip : override = false ∧ (m.store.nsPrefix.lookup pfx).isSome = true
    · refine iff_of_true ?_ (.inl hskip)
      rw [step, NSManager.bind, if_pos (by simp [hskip.1, hskip.2])]
      exact h
    · exact h.bind_iff hskip

/-- The names expand exactly in a coherent state. -/
theorem expands_iff_coherent (hsplits : m.CacheSplits) : m.Expands ↔ m.Coherent := by
  constructor
  · intro h
    refine ⟨fun ns pfx hns hspace => ?_, fun uri name hname => ?_⟩
    · obtain ⟨uri, rfl, huri⟩ := m.exists_uncached hspace
      have hq : m.qname uri = (some (pfx ++ ':' :: (splitURI uri).2),
          { m with cache := m.cache.insert uri (pfx, splitURI uri) }) := by
        simp only [qname, NSManager.computeQName, huri, if_neg hspace.1, NSManager.generatePrefix,
          hns, Option.map_some]
      have hexp := (h uri _ (congrArg Prod.fst hq)).trans
        (congrArg some (splitURI_append uri).symm)
      rw [hq] at hexp
      exact expandCURIE_iff.mp hexp
    · have hq : m.qname uri = (some (name.1 ++ ':' :: name.2.2), m) := by
        simp only [qname, NSManager.computeQName, hname, Option.map_some]
      have hexp := (h uri _ (congrArg Prod.fst hq)).trans
        (congrArg some (splitURI_append uri).symm)
      rw [hq, ← (hsplits uri name hname).1] at hexp
      exact expandCURIE_iff.mp hexp
  · intro h uri curie hcurie
    obtain ⟨name, hname, rfl⟩ := Option.map_eq_some_iff.mp hcurie
    obtain ⟨hleads, huri⟩ := (h.computeQName hsplits uri).2 name hname
    exact (expandCURIE_iff.mpr hleads).trans (congrArg some huri)

/-! ## Runs -/

theorem expands_run_iff (calls : List Call) (h : m.Coherent) (hsplits : m.CacheSplits) :
    (∀ done, done <+: calls → (done.foldl step m).Expands) ↔ m.KeepsAll calls := by
  induction calls generalizing m with
  | nil =>
    refine iff_of_true (fun done hdone => ?_) trivial
    rw [prefix_nil.mp hdone]
    exact (expands_iff_coherent hsplits).mpr h
  | cons c calls ih =>
    have hstep := step_coherent_iff h hsplits c
    have hsplits' := hsplits.step c
    constructor
    · intro hall
      have hc := (expands_iff_coherent hsplits').mp (hall [c] ⟨calls, rfl⟩)
      refine ⟨hstep.mp hc, (ih hc hsplits').mp fun done hdone => ?_⟩
      exact hall (c :: done) (prefix_cons_inj c |>.mpr hdone)
    · rintro ⟨hc, hcalls⟩ done hdone
      cases done with
      | nil => exact (expands_iff_coherent hsplits).mpr h
      | cons d done =>
        obtain ⟨rfl, hrest⟩ := cons_prefix_cons.mp hdone
        exact (ih (hstep.mpr hc) hsplits').mpr hcalls done hrest

/-- At every moment of a run the name of an IRI expands to it, whether it comes from the
    cache or not, exactly if no call of `Bind` in the run takes its namespace from a name in
    use. -/
theorem expands_iff_keepsAll (calls : List Call) :
    (∀ done, done <+: calls → (done.foldl step new).Expands) ↔ new.KeepsAll calls :=
  expands_run_iff calls ⟨nofun, nofun⟩ nofun

/-- The cached name of an IRI is kept when its prefix is bound to another namespace. -/
theorem reboundPrefix_not_expands :
    ¬ ([.bind ['a'] ['x', '#'] false, .computeQName ['x', '#', 'n'],
      .bind ['a'] ['y', '#'] true].foldl step new).Expands := by
  intro h
  have hexpand := h ['x', '#', 'n'] ['a', ':', 'n'] rfl
  exact absurd hexpand (by decide)

end NSManager

end GoRdf
