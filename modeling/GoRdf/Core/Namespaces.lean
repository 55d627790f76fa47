import Mathlib.Data.List.DropRight
import Mathlib.Data.Set.Finite.Basic
import GoRdf.Core.Badger
import GoRdf.Lib.Delimited

/-!
# Namespace Bindings

`Bind`, `Namespace`, `Prefix` and `Namespaces` of the three stores. A memory store and a
SPARQL store keep two Go maps, one for each direction; a Badger store keeps both directions
in its database, under keys with a letter of their own. A namespace is its text. Contexts
and failing databases are left out: a `Bind` that fails changes nothing.

## Main definitions

* `NamespaceMaps`: The two maps.
* `BadgerStore.bind`: The entries in the database.
* `Namespaces`, `namespacesOf`: What a store answers after some calls of `Bind`.
* `NSManager`: A memory store with a cache of the names it gave.
-/

namespace GoRdf

open Lib

/-- `nsPrefix` and `nsURI` of a `MemoryStore`; `prefix` and `uri` of a `SPARQLStore`. -/
structure NamespaceMaps where
  nsPrefix : GoMap Key
  nsURI : GoMap Key

/-- `Bind`. -/
def NamespaceMaps.bind (m : NamespaceMaps) (pfx ns : Key) : NamespaceMaps :=
  ⟨m.nsPrefix.insert pfx ns, m.nsURI.insert ns pfx⟩

/-- `nsKey`. -/
def nsKey (pfx : Key) : Key :=
  'n' :: '\x00' :: pfx

/-- `nuKey`. -/
def nuKey (ns : Key) : Key :=
  'u' :: '\x00' :: ns

/-- `Bind`. -/
def BadgerStore.bind (kv : BadgerStore) (pfx ns : Key) : BadgerStore :=
  (kv.insert (nsKey pfx) ns).insert (nuKey ns) pfx

/-- What a store answers: `Namespace`, `Prefix`, and what `Namespaces` yields. -/
structure Namespaces where
  namespaceOf : Key → Option Key
  prefixFor : Key → Option Key
  list : List (Key × Key)

/-- The readers of a memory store and of a SPARQL store. -/
def NamespaceMaps.read (m : NamespaceMaps) : Namespaces :=
  ⟨m.nsPrefix.lookup, m.nsURI.lookup, m.nsPrefix.entries.map fun e => (e.1, e.2)⟩

/-- The readers of a Badger store. `Namespaces` skips the first two bytes of a key. -/
def BadgerStore.readNamespaces (kv : BadgerStore) : Namespaces :=
  ⟨fun pfx => kv.lookup (nsKey pfx), fun ns => kv.lookup (nuKey ns),
    (scan kv fun k => (nsKey []).isPrefixOf k).map fun e => (e.1.drop 2, e.2)⟩

/-- The stores. -/
inductive StoreKind
  | memory
  | badger
  | sparql

/-- What a new store answers after calls of `Bind`. -/
def namespacesOf (binds : List (Key × Key)) : StoreKind → Namespaces
  | .memory | .sparql => (binds.foldl (fun m b => NamespaceMaps.bind m b.1 b.2) ⟨∅, ∅⟩).read
  | .badger => (binds.foldl (fun kv b => BadgerStore.bind kv b.1 b.2) ∅).readNamespaces

/-! ## The manager -/

/-- The text up to the last separator, with it, and the text behind. -/
def splitLast (sep : Char) (uri : Key) : Option (Key × Key) :=
  if sep ∈ uri then some (uri.rdropWhile (· != sep), uri.rtakeWhile (· != sep)) else none

/-- `SplitURI`. -/
def splitURI (uri : Key) : Key × Key :=
  ((splitLast '#' uri).or ((splitLast '/' uri).or (splitLast ':' uri))).getD ([], uri)

/-- `NSManager`, of a memory store. A cached name is a prefix, a namespace and a local name. -/
structure NSManager where
  store : NamespaceMaps
  cache : GoMap (Key × Key × Key)
  genID : Nat

namespace NSManager

/-- `NewNSManager`, of a new store. -/
def new : NSManager := ⟨⟨∅, ∅⟩, ∅, 0⟩

/-- `Bind`. The names of the IRIs in the namespace are forgotten. -/
def bind (m : NSManager) (pfx ns : Key) (override : Bool) : NSManager :=
  if !override && (m.store.nsPrefix.lookup pfx).isSome then m
  else
    { m with
      store := m.store.bind pfx ns
      cache := m.cache.keys.foldl
        (fun cache uri => if ns.isPrefixOf uri then cache.erase uri else cache) m.cache }

/-- `fmt.Sprintf("ns%d", n)`. -/
def autoPrefix (n : Nat) : Key :=
  'n' :: 's' :: Nat.toDigits 10 n

/-- Some number has not been taken. -/
theorem exists_free (m : GoMap Key) (n : Nat) : ∃ k, m.lookup (autoPrefix (n + 1 + k)) = none := by
  have hinj : Function.Injective fun k => autoPrefix (n + 1 + k) := by
    intro j k h
    have hdigits := toDigits_injective (List.cons.inj (List.cons.inj h).2).2
    omega
  obtain ⟨_, ⟨k, rfl⟩, hk⟩ :=
    (Set.infinite_range_of_injective hinj).exists_notMem_finset m.keys.toFinset
  exact ⟨k, AList.lookup_eq_none.mpr fun h => hk (List.mem_toFinset.mpr h)⟩

/-- `generatePrefix`: the prefix of a namespace, made up if it has none. -/
def generatePrefix (m : NSManager) (ns : Key) : Key × NSManager :=
  match m.store.nsURI.lookup ns with
  | some pfx => (pfx, m)
  | none =>
    let genID := m.genID + 1 + Nat.find (exists_free m.store.nsPrefix m.genID)
    (autoPrefix genID, { m with store := m.store.bind (autoPrefix genID) ns, genID })

/-- `ComputeQName`. Between two calls nothing happens, so the first of its lookups of the
    prefix is the one that `generatePrefix` repeats. -/
def computeQName (m : NSManager) (uri : Key) : Option (Key × Key × Key) × NSManager :=
  match m.cache.lookup uri with
  | some cached => (some cached, m)
  | none =>
    let (ns, localName) := splitURI uri
    if ns = [] then (none, m)
    else
      let (pfx, m) := m.generatePrefix ns
      (some (pfx, ns, localName), { m with cache := m.cache.insert uri (pfx, ns, localName) })

/-- `QName`. -/
def qname (m : NSManager) (uri : Key) : Option Key × NSManager :=
  ((m.computeQName uri).1.map fun name => name.1 ++ ':' :: name.2.2, (m.computeQName uri).2)

/-- `ExpandCURIE`. -/
def expandCURIE (m : NSManager) (curie : Key) : Option Key :=
  match curie.dropWhile (· != ':') with
  | [] => none
  | _ :: localName =>
    (m.store.nsPrefix.lookup (curie.takeWhile (· != ':'))).map (· ++ localName)

/-- A call that may change the manager. `QName` makes a call of `ComputeQName`. -/
inductive Call
  | bind (pfx ns : Key) (override : Bool)
  | computeQName (uri : Key)

def step (m : NSManager) : Call → NSManager
  | .bind pfx ns override => m.bind pfx ns override
  | .computeQName uri => (m.computeQName uri).2

end NSManager

end GoRdf
