import Mathlib.Data.Finset.Card
import GoRdf.Lib.Iterate
import GoRdf.Theory.PathRel

/-!
# Repeated Paths

`p?`, `p*` and `p+`, in the three directions they are evaluated in: forward
from a subject, backward from an object, and from every node.

The inner path enters only through its specification: for the ends that it is
clean at, it yields exactly its relation `R`. If it is clean wherever a traversal
comes to, the traversal meets exactly what `R` can reach, and all three
directions yield the same relation, restricted to the ends that are bound.

A literal is never gone on from, neither forward nor when every node is tried,
so nothing else may be reached through one. An end that is bound has its
zero-length path whether it is a node or not.

## Main definitions

* `agrees`: A pair has the ends that are bound.
* `Inner`: What a repetition needs to know of the path under it.
* `RepRel`: The relation of the repetition.
* `RepClean`: The ends at which nothing is in the way of a repetition.

## Theorems

* `Follows.mem_walk`: A traversal meets what can be reached.
* `mem_evalMul_iff`: The pairs of the relation that have the given ends.
* `nodup_evalMul`: Each once.
-/

namespace GoRdf

open Lib Relation List

variable {o x y : Term} {s : Subject} {more : Bool} {flat : Option FlatSpec} {q : Pair}
  {out : List Pair} {obj : Option Term}

/-! ## Emitting pairs -/

theorem any_pairKey_iff (out : List Pair) (q : Pair) :
    (out.any fun r => pairKey r == pairKey q) = true ↔ q ∈ out := by
  rw [any_eq_true]
  constructor
  · rintro ⟨r, hr, hk⟩
    have hrq : r = q := Prod.ext_iff.mpr (Term.pairKey_inj (beq_iff_eq.mp hk))
    rw [← hrq]
    exact hr
  · intro hq
    exact ⟨q, hq, beq_self_eq_true _⟩

theorem mem_emit (q r : Pair) (out : List Pair) : r ∈ emit q out ↔ r ∈ out ∨ r = q := by
  rw [emit]
  split
  · rename_i h
    refine ⟨.inl, fun hor => hor.elim id ?_⟩
    rintro rfl
    exact (any_pairKey_iff out r).mp h
  · rw [mem_append, mem_singleton]

theorem nodup_emit (q : Pair) (h : out.Nodup) : (emit q out).Nodup := by
  rw [emit]
  split
  · exact h
  · rename_i hq
    refine nodup_append.mpr ⟨h, nodup_singleton q, ?_⟩
    rintro r hr s hs rfl
    rw [mem_singleton.mp hs] at hr
    exact hq ((any_pairKey_iff out q).mpr hr)

/-- Emitting in a loop, some elements being passed over. -/
theorem mem_foldl_emit {α : Type} (f : α → Pair) (P : α → Bool) (xs : List α) (out : List Pair)
    (r : Pair) :
    r ∈ xs.foldl (fun out x => if P x then emit (f x) out else out) out ↔
      r ∈ out ∨ ∃ x ∈ xs, P x = true ∧ r = f x := by
  refine Lib.foldl_iff (M := (r ∈ ·)) (fun out x => ?_) xs out
  by_cases hx : P x = true
  · rw [if_pos hx, mem_emit, and_iff_right hx]
  · rw [if_neg hx, or_iff_left fun h => hx h.1]

theorem nodup_foldl_emit {α : Type} (f : α → Pair) (P : α → Bool) (xs : List α) (h : out.Nodup) :
    (xs.foldl (fun out x => if P x then emit (f x) out else out) out).Nodup := by
  refine foldlRecOn xs _ h fun out hout x _ => ?_
  split
  · exact nodup_emit _ hout
  · exact hout

/-! ## Ends -/

/-- The pair has the ends that are bound. -/
def agrees (subj : Option Subject) (obj : Option Term) (q : Pair) : Bool :=
  subj.all (fun s => q.1 == .subject s) && obj.all fun o => q.2 == o

theorem agrees_iff {subj : Option Subject} :
    agrees subj obj q = true ↔ (∀ s ∈ subj, q.1 = .subject s) ∧ ∀ o ∈ obj, q.2 = o := by
  cases subj <;> cases obj <;> simp [agrees]

theorem agreesObj_iff : agreesObj obj o = true ↔ ∀ t ∈ obj, o = t := by
  cases obj with
  | none => simp [agreesObj]
  | some t => simp [agreesObj, Term.termKey_inj]

/-- What a repetition needs to know of the path under it: it leads from nodes to
    nodes, and for ends that it is clean at it yields its relation. -/
structure Inner (g : Graph) (R : Term → Term → Prop) (C : Option Subject → Option Term → Prop)
    (inner : Option Subject → Option Term → List Pair) : Prop where
  nodes : ∀ x y, R x y → g.IsNode x ∧ g.IsNode y
  mem_iff : ∀ subj obj, C subj obj → ∀ q : Pair,
    q ∈ inner subj obj ↔ R q.1 q.2 ∧ agrees subj obj q = true

/-- One step, or several. -/
def Steps (R : Term → Term → Prop) (more : Bool) (x y : Term) : Prop :=
  if more then TransGen R x y else R x y

/-- The relation of `p?`, `p*` or `p+`, over the relation of `p`. -/
def RepRel (g : Graph) (R : Term → Term → Prop) (zero more : Bool) (x y : Term) : Prop :=
  (zero = true ∧ x = y ∧ g.IsNode x) ∨ Steps R more x y

/-- A traversal from the first term comes to the second to go on from it. -/
def Comes (R : Term → Term → Prop) (more : Bool) (x y : Term) : Prop :=
  y = x ∨ more = true ∧ TransGen R x y

/-- Going forward, the path is clean at every subject that is come to, and nothing
    but itself is reached from a literal. -/
def CleanFrom (R : Term → Term → Prop) (C : Option Subject → Option Term → Prop) (more : Bool)
    (s : Subject) : Prop :=
  ∀ x, Comes R more (.subject s) x →
    match x with
    | .subject t => C (some t) none
    | .literal l => ∀ y, R (.literal l) y → y = .literal l

/-- Going backward, the path is clean at every term that is come to. -/
def CleanTo (R : Term → Term → Prop) (C : Option Subject → Option Term → Prop) (more : Bool)
    (o : Term) : Prop :=
  ∀ x, Comes (Function.swap R) more o x → C none (some x)

/-- A bound end has a zero-length path only if it is a node, and what is traversed is
    clean. A store that answers needs no traversal. -/
def RepClean (g : Graph) (R : Term → Term → Prop) (C : Option Subject → Option Term → Prop)
    (flat : Option FlatSpec) (zero more : Bool) : Option Subject → Option Term → Prop
  | some s, obj =>
    (zero = true → agreesObj obj (.subject s) = true → g.IsNode (.subject s)) ∧
      (evalViaStore g flat more (some s) obj = none → CleanFrom R C more s)
  | none, some o =>
    (zero = true → g.IsNode o) ∧
      (evalViaStore g flat more none (some o) = none → CleanTo R C more o)
  | none, none => ∀ n, g.IsNode n →
    match n with
    | .subject s => CleanFrom R C more s
    | .literal l => ∀ y, R (.literal l) y → zero = true ∧ y = .literal l

section

variable {g : Graph} {R : Term → Term → Prop} {C : Option Subject → Option Term → Prop}
  {inner : Option Subject → Option Term → List Pair}

theorem Comes.steps {z : Term} (h : Comes R more x y) (hz : R y z) : Steps R more x z := by
  rw [Steps]
  rcases h with rfl | ⟨hmore, hxy⟩
  · split
    · exact .single hz
    · exact hz
  · rw [if_pos hmore]
    exact hxy.tail hz

/-- The keys a traversal from `start` can mark, few enough for its fuel. -/
def markable (g : Graph) (start : Term) : Finset (List Char) :=
  insert start.termKey (g.allNodes.map TermOf.termKey).toFinset

theorem card_markable_le (g : Graph) (start : Term) :
    (markable g start).card ≤ traversalFuel g := by
  refine Nat.le_trans (Finset.card_insert_le _ _) (Nat.succ_le_succ ?_)
  refine Nat.le_trans (toFinset_card_le _) ?_
  rw [length_map]

theorem mem_markable {g : Graph} {start : Term} (h : x = start ∨ g.IsNode x) :
    x.termKey ∈ markable g start := by
  rcases h with rfl | h
  · exact Finset.mem_insert_self _ _
  · refine Finset.mem_insert_of_mem (mem_toFinset.mpr ?_)
    exact mem_map_of_mem ((mem_allNodes g x).mpr h)

/-- What a forward traversal meets. -/
def metFrom (inner : Option Subject → Option Term → List Pair) (more : Bool) (fuel : Nat)
    (s : Subject) : List Term :=
  (walk TermOf.termKey (stepFrom inner) (fun o => more && isSubject o) meet fuel (.subject s)
    ⟨[], []⟩).out

/-- What a backward traversal meets. -/
def metTo (inner : Option Subject → Option Term → List Pair) (more : Bool) (fuel : Nat) (o : Term) :
    List Term :=
  (walk TermOf.termKey (stepTo inner) (fun _ => more) meet fuel o ⟨[], []⟩).out

/-! ## Walks -/

/-- A walk from `a` follows `Q` where it comes to a place that it may enter, and it enters
    all but those that lead nowhere else. -/
structure Follows (g : Graph) (Q : Term → Term → Prop) (K : Term → Prop) (more : Bool)
    (next : Term → List Term) (enter : Term → Bool) (a : Term) : Prop where
  start : K a
  mem_iff : ∀ b, Comes Q more a b → K b → ∀ y, y ∈ next b ↔ Q b y
  enters : ∀ y, enter y = true → more = true ∧ K y
  skips : more = true → ∀ y z, TransGen Q a y → Q y z → z = y ∨ enter y = true
  nodes : ∀ b y, Q b y → g.IsNode y

section

variable {Q : Term → Term → Prop} {K : Term → Prop} {next : Term → List Term}
  {enter : Term → Bool} {a : Term} (h : Follows g Q K more next enter a)

include h

/-- A place that is entered is the start, or is reached from it. -/
theorem Follows.entered {b : Term} (hb : ReflTransGen (Enters next enter) a b) :
    K b ∧ (b = a ∨ g.IsNode b) ∧ Comes Q more a b := by
  induction hb with
  | refl => exact ⟨h.start, .inl rfl, .inl rfl⟩
  | @tail c d _ hstep ih =>
    obtain ⟨hKc, -, hc⟩ := ih
    have hQ : Q c d := (h.mem_iff c hc hKc d).mp hstep.1
    obtain ⟨hmore, hKd⟩ := h.enters d hstep.2
    have hreach := hc.steps hQ
    rw [Steps, if_pos hmore] at hreach
    exact ⟨hKd, .inr (h.nodes c d hQ), .inr ⟨hmore, hreach⟩⟩

/-- Everything that can be reached is met. What comes after a place that is not entered is
    that place, which has been met already. -/
theorem Follows.mem_walk (y : Term) :
    y ∈ (walk TermOf.termKey next enter meet (traversalFuel g) a ⟨[], []⟩).out ↔
      Steps Q more a y := by
  have hwalk := mem_walk_iff (fun _ _ => Term.termKey_inj.mp)
    (fun b hb => mem_markable (h.entered hb).2.1) (card_markable_le g a) y
  rw [hwalk]
  clear hwalk
  constructor
  · rintro ⟨b, hb, hy⟩
    obtain ⟨hKb, -, hcomes⟩ := h.entered hb
    exact hcomes.steps ((h.mem_iff b hcomes hKb y).mp hy)
  · intro hy
    have hstart := h.mem_iff a (.inl rfl) h.start
    rw [Steps] at hy
    cases more with
    | false => exact ⟨a, .refl, (hstart y).mpr hy⟩
    | true =>
      simp only [if_true] at hy
      induction hy with
      | single hQ => exact ⟨a, .refl, (hstart _).mpr hQ⟩
      | @tail c d hac hQ ih =>
        obtain ⟨b, hb, hcb⟩ := ih
        rcases h.skips rfl c d hac hQ with rfl | hc
        · exact ⟨b, hb, hcb⟩
        · have hentered := hb.tail ⟨hcb, hc⟩
          obtain ⟨hKc, -, hcomes⟩ := h.entered hentered
          exact ⟨c, hentered, (h.mem_iff c hcomes hKc d).mpr hQ⟩

end

theorem steps_swap : Steps (Function.swap R) more x y ↔ Steps R more y x := by
  cases more with
  | false => exact Iff.rfl
  | true => exact transGen_swap

/-! ## Forward -/

/-- Going forward, a literal is not entered. -/
theorem Inner.mem_metFrom (h : Inner g R C inner) (hclean : CleanFrom R C more s) :
    y ∈ metFrom inner more (traversalFuel g) s ↔ Steps R more (.subject s) y := by
  refine Follows.mem_walk (K := fun b => isSubject b = true) ⟨rfl, ?_, ?_, ?_, ?_⟩ y
  · intro b hcomes hb y
    cases b with
    | literal l => cases hb
    | subject t =>
      have hmem := h.mem_iff (some t) none (hclean _ hcomes)
      refine mem_map.trans ⟨?_, fun hy => ⟨(.subject t, y), (hmem _).mpr ⟨hy, ?_⟩, rfl⟩⟩
      · rintro ⟨q, hq, rfl⟩
        obtain ⟨hR, hag⟩ := (hmem q).mp hq
        rwa [(agrees_iff.mp hag).1 t rfl] at hR
      · exact agrees_iff.mpr ⟨by simp, nofun⟩
  · intro y hy
    rwa [Bool.and_eq_true] at hy
  · intro hmore y z hy hR
    cases y with
    | subject t => exact .inr (by rw [hmore]; rfl)
    | literal l => exact .inl (hclean _ (.inr ⟨hmore, hy⟩) z hR)
  · exact fun b y hR => (h.nodes b y hR).2

theorem mem_fwdFrom (more : Bool) (origin : Term) (obj : Option Term) (fuel : Nat)
    (s : Subject) (out : List Pair) (q : Pair) :
    q ∈ fwdFrom inner more origin obj fuel s out ↔
      q ∈ out ∨ ∃ y ∈ metFrom inner more fuel s, agreesObj obj y = true ∧ q = (origin, y) := by
  rw [fwdFrom, walk_out]
  exact mem_foldl_emit (fun y => (origin, y)) (agreesObj obj) _ out q

theorem nodup_fwdFrom (more : Bool) (origin : Term) (obj : Option Term) (fuel : Nat) (s : Subject)
    (h : out.Nodup) :
    (fwdFrom inner more origin obj fuel s out).Nodup := by
  rw [fwdFrom, walk_out]
  exact nodup_foldl_emit (fun y => (origin, y)) (agreesObj obj) _ h

/-! ## Backward -/

/-- Going backward, every term is entered. -/
theorem Inner.mem_metTo (h : Inner g R C inner) (hclean : CleanTo R C more o) :
    x ∈ metTo inner more (traversalFuel g) o ↔ Steps R more x o := by
  rw [← steps_swap]
  refine Follows.mem_walk (K := fun _ => True) ⟨trivial, ?_, ?_, ?_, ?_⟩ x
  · intro b hcomes _ x
    have hmem := h.mem_iff none (some b) (hclean b hcomes)
    refine mem_map.trans ⟨?_, fun hx => ⟨(x, b), (hmem _).mpr ⟨hx, ?_⟩, rfl⟩⟩
    · rintro ⟨q, hq, rfl⟩
      obtain ⟨hR, hag⟩ := (hmem q).mp hq
      rwa [(agrees_iff.mp hag).2 b rfl] at hR
    · exact agrees_iff.mpr ⟨nofun, by simp⟩
  · exact fun _ hmore => ⟨hmore, trivial⟩
  · exact fun hmore _ _ _ _ => .inr hmore
  · exact fun b x hR => (h.nodes x b hR).1

theorem mem_bwdTo (more : Bool) (target : Term) (fuel : Nat) (o : Term) (out : List Pair)
    (q : Pair) :
    q ∈ bwdTo inner more target fuel o out ↔
      q ∈ out ∨ ∃ x ∈ metTo inner more fuel o, q = (x, target) := by
  rw [bwdTo, walk_out]
  simpa [metTo] using mem_foldl_emit (fun x => (x, target)) (fun _ => true) _ out q

theorem nodup_bwdTo (more : Bool) (target : Term) (fuel : Nat) (o : Term) (h : out.Nodup) :
    (bwdTo inner more target fuel o out).Nodup := by
  rw [bwdTo, walk_out]
  simpa using nodup_foldl_emit (fun x => (x, target)) (fun _ => true) _ h

/-! ## Through the store -/

/-- The flat form of the inner path, if it has one, asks for `R`. -/
def FlatOk (g : Graph) (R : Term → Term → Prop) (flat : Option FlatSpec) : Prop :=
  ∀ spec, flat = some spec → ∀ start x y, R x y ↔ (spec.query start).Edge g.all x y

theorem evalViaStore_fwd (hflat : FlatOk g R flat) {pairs : List Pair}
    (h : evalViaStore g flat more (some s) obj = some pairs) :
    more = true ∧ ∀ q, q ∈ pairs ↔
      TransGen R (.subject s) q.2 ∧ q.1 = .subject s ∧ agreesObj obj q.2 = true := by
  rw [evalViaStore] at h
  split at h
  · rename_i hmore
    refine ⟨hmore, ?_⟩
    obtain ⟨rs, -, h⟩ := Option.bind_eq_some_iff.mp h
    obtain ⟨spec, hspec, h⟩ := Option.bind_eq_some_iff.mp h
    obtain ⟨reached, hreached, rfl⟩ := Option.map_eq_some_iff.mp h
    have hR : (spec.query (.subject s)).Edge g.all = R := by
      funext x y
      exact propext (hflat spec hspec _ x y).symm
    rintro ⟨x, y⟩
    simp only [← hR, mem_map, mem_filter, rs.mem_iff _ _ hreached]
    constructor
    · rintro ⟨n, ⟨hn, hobj⟩, ⟨⟩⟩
      exact ⟨hn, rfl, hobj⟩
    · rintro ⟨hy, rfl, hobj⟩
      exact ⟨y, ⟨hy, hobj⟩, rfl⟩
  · cases h

theorem evalViaStore_bwd (hflat : FlatOk g R flat) {pairs : List Pair}
    (h : evalViaStore g flat more none (some o) = some pairs) :
    more = true ∧ ∀ q, q ∈ pairs ↔ TransGen R q.1 o ∧ q.2 = o := by
  rw [evalViaStore] at h
  split at h
  · rename_i hmore
    refine ⟨hmore, ?_⟩
    obtain ⟨rs, -, h⟩ := Option.bind_eq_some_iff.mp h
    obtain ⟨spec, hspec, h⟩ := Option.bind_eq_some_iff.mp h
    obtain ⟨reached, hreached, rfl⟩ := Option.map_eq_some_iff.mp h
    -- The store walks the edges the other way round.
    have hR : ReachabilityQuery.Edge g.all ⟨o, spec.preds, spec.negated, !spec.inverse⟩ =
        Function.swap R := by
      funext x y
      exact propext ((FlatSpec.edge_inverse spec o x y).trans (hflat spec hspec o y x).symm)
    rintro ⟨x, y⟩
    rw [← transGen_swap, ← hR]
    simp only [mem_map, rs.mem_iff _ _ hreached]
    constructor
    · rintro ⟨n, hn, ⟨⟩⟩
      exact ⟨hn, rfl⟩
    · rintro ⟨hx, rfl⟩
      exact ⟨x, hx, rfl⟩
  · cases h

/-! ## All directions -/

theorem mem_foldl_emit_all (pairs out : List Pair) (q : Pair) :
    q ∈ pairs.foldl (fun out r => emit r out) out ↔ q ∈ out ∨ q ∈ pairs := by
  have hmem := mem_foldl_emit id (fun _ => true) pairs out q
  simpa using hmem

/-- The zero-length pair a bound end starts with. -/
theorem mem_zero_pair (c : Bool) (x : Term) (q : Pair) :
    q ∈ (if c then emit (x, x) [] else []) ↔ c = true ∧ q = (x, x) := by
  cases c <;> simp [mem_emit]

/-- From a bound subject, the pairs of it with itself and with what it reaches. -/
theorem mem_evalMul_fwd (h : Inner g R C inner) (hflat : FlatOk g R flat) (zero more : Bool)
    (hclean : evalViaStore g flat more (some s) obj = none → CleanFrom R C more s) :
    q ∈ evalMul g inner flat zero more (some s) obj ↔
      q.1 = .subject s ∧ agreesObj obj q.2 = true ∧
        (zero = true ∧ q.2 = .subject s ∨ Steps R more (.subject s) q.2) := by
  have hzero : ((zero && agreesObj obj (.subject s)) = true ∧ q = (.subject s, .subject s)) ↔
      q.1 = .subject s ∧ agreesObj obj q.2 = true ∧ zero = true ∧ q.2 = .subject s := by
    obtain ⟨x, y⟩ := q
    rw [Bool.and_eq_true, Prod.mk.injEq]
    constructor
    · rintro ⟨⟨hz, hobj⟩, rfl, rfl⟩
      exact ⟨rfl, hobj, hz, rfl⟩
    · rintro ⟨rfl, hobj, hz, rfl⟩
      exact ⟨⟨hz, hobj⟩, rfl, rfl⟩
  simp only [and_or_left, ← hzero]
  rw [evalMul]
  -- Either the store answers a plain predicate, or the walk does.
  split
  · rename_i pairs hpairs
    obtain ⟨hmore, hmem⟩ := evalViaStore_fwd hflat hpairs
    rw [mem_foldl_emit_all, mem_zero_pair, hmem, Steps, if_pos hmore]
    tauto
  · rename_i hnone
    rw [mem_fwdFrom, mem_zero_pair]
    simp only [h.mem_metFrom (hclean hnone)]
    refine or_congr_right ⟨?_, fun h => ⟨q.2, h.2.2, h.2.1, Prod.ext h.1 rfl⟩⟩
    rintro ⟨y, hy, hobj, rfl⟩
    exact ⟨rfl, hobj, hy⟩

/-- To a bound object, likewise. -/
theorem mem_evalMul_bwd (h : Inner g R C inner) (hflat : FlatOk g R flat) (zero more : Bool)
    (hclean : evalViaStore g flat more none (some o) = none → CleanTo R C more o) :
    q ∈ evalMul g inner flat zero more none (some o) ↔
      q.2 = o ∧ (zero = true ∧ q.1 = o ∨ Steps R more q.1 o) := by
  have hzero : (zero = true ∧ q = (o, o)) ↔ q.2 = o ∧ zero = true ∧ q.1 = o := by
    obtain ⟨x, y⟩ := q
    rw [Prod.mk.injEq]
    tauto
  simp only [and_or_left, ← hzero]
  rw [evalMul]
  split
  · rename_i pairs hpairs
    obtain ⟨hmore, hmem⟩ := evalViaStore_bwd hflat hpairs
    rw [mem_foldl_emit_all, mem_zero_pair, hmem, Steps, if_pos hmore]
    tauto
  · rename_i hnone
    rw [mem_bwdTo, mem_zero_pair]
    simp only [h.mem_metTo (hclean hnone)]
    refine or_congr_right ⟨?_, fun h => ⟨q.1, h.2, Prod.ext rfl h.1⟩⟩
    rintro ⟨x, hx, rfl⟩
    exact ⟨rfl, hx⟩

theorem mem_fwd_all (more : Bool) (fuel : Nat) (nodes : List Term) (out : List Pair) (q : Pair) :
    q ∈ nodes.foldl (fun out n =>
        match n.asSubject with
        | some s => fwdFrom inner more (.subject s) none fuel s out
        | none => out) out ↔
      q ∈ out ∨ ∃ s, (.subject s : Term) ∈ nodes ∧ q.1 = .subject s ∧
        q.2 ∈ metFrom inner more fuel s := by
  induction nodes generalizing out with
  | nil => simp
  | cons n nodes ih =>
    rw [foldl_cons, ih]
    cases n with
    | literal l =>
      simp only [TermOf.asSubject, mem_cons, reduceCtorEq, false_or]
    | subject t =>
      simp only [TermOf.asSubject, mem_fwdFrom, agreesObj, true_and, mem_cons,
        TermOf.subject.injEq, or_and_right, exists_or, exists_eq_left, or_assoc]
      refine or_congr_right (or_congr_left ?_)
      constructor
      · rintro ⟨y, hy, rfl⟩
        exact ⟨rfl, hy⟩
      · rintro ⟨h₁, h₂⟩
        exact ⟨q.2, h₂, Prod.ext h₁ rfl⟩

theorem mem_zero_all (zero : Bool) (nodes : List Term) (q : Pair) :
    q ∈ (if zero then nodes.foldl (fun out n => emit (n, n) out) [] else []) ↔
      zero = true ∧ ∃ n ∈ nodes, q = (n, n) := by
  cases zero with
  | false => simp
  | true =>
    have hmem := mem_foldl_emit (fun n : Term => (n, n)) (fun _ => true) nodes [] q
    simpa using hmem

theorem mem_evalMul_free (flat : Option FlatSpec) (zero more : Bool) (q : Pair) :
    q ∈ evalMul g inner flat zero more none none ↔
      (zero = true ∧ ∃ n, g.IsNode n ∧ q = (n, n)) ∨
        ∃ s, g.IsNode (.subject s) ∧ q.1 = .subject s ∧
          q.2 ∈ metFrom inner more (traversalFuel g) s := by
  refine (mem_fwd_all more (traversalFuel g) g.allNodes _ q).trans ?_
  rw [mem_zero_all]
  simp only [mem_allNodes]

theorem Inner.node_of_steps (h : Inner g R C inner) (hsteps : Steps R more x y) : g.IsNode x := by
  cases more with
  | false => exact (h.nodes x y hsteps).1
  | true =>
    obtain ⟨z, hstep, -⟩ := TransGen.head'_iff.mp hsteps
    exact (h.nodes x z hstep).1

/-- Where every step leads to `x` itself, so do several. -/
theorem eq_of_steps {P : Prop} (hstep : ∀ y, R x y → P ∧ y = x) (h : Steps R more x y) :
    P ∧ y = x := by
  cases more with
  | false => exact hstep y h
  | true =>
    rw [Steps, if_pos rfl] at h
    induction h with
    | single hR => exact hstep _ hR
    | tail _ hR ih =>
      rw [ih.2] at hR
      exact hstep _ hR

/-- At clean ends, the pairs of the relation that have these ends are yielded. -/
theorem mem_evalMul_iff (h : Inner g R C inner) (hflat : FlatOk g R flat) {zero : Bool}
    {subj : Option Subject} (hclean : RepClean g R C flat zero more subj obj) :
    q ∈ evalMul g inner flat zero more subj obj ↔
      RepRel g R zero more q.1 q.2 ∧ agrees subj obj q = true := by
  obtain ⟨x, y⟩ := q
  match subj, obj with
  | some s, obj =>
    rw [mem_evalMul_fwd h hflat zero more hclean.2, agrees_iff, ← agreesObj_iff]
    constructor
    · rintro ⟨rfl, hobj, hcase⟩
      refine ⟨hcase.imp_left fun ⟨hz, hy⟩ => ⟨hz, hy.symm, ?_⟩, by simp, hobj⟩
      exact hclean.1 hz (hy ▸ hobj)
    · rintro ⟨hrel, hx, hobj⟩
      obtain rfl : x = .subject s := hx s rfl
      exact ⟨rfl, hobj, hrel.imp_left fun hz => ⟨hz.1, hz.2.1.symm⟩⟩
  | none, some o =>
    rw [mem_evalMul_bwd h hflat zero more hclean.2, agrees_iff]
    constructor
    · rintro ⟨rfl, hcase⟩
      refine ⟨hcase.imp_left fun ⟨hz, hx⟩ => ⟨hz, hx, ?_⟩, nofun, by simp⟩
      exact hx ▸ hclean.1 hz
    · rintro ⟨hrel, -, hy⟩
      obtain rfl : y = o := hy o rfl
      exact ⟨rfl, hrel.imp_left fun hz => ⟨hz.1, hz.2.1⟩⟩
  | none, none =>
    rw [mem_evalMul_free]
    constructor
    · rintro (⟨hz, n, hn, heq⟩ | ⟨s, hnode, rfl, hmet⟩)
      · obtain ⟨rfl, rfl⟩ := Prod.mk.inj heq
        exact ⟨.inl ⟨hz, rfl, hn⟩, rfl⟩
      · exact ⟨.inr ((h.mem_metFrom (hclean _ hnode)).mp hmet), rfl⟩
    · rintro ⟨⟨hz, heq, hx⟩ | hsteps, -⟩
      · exact .inl ⟨hz, x, hx, Prod.ext rfl heq.symm⟩
      · have hx : g.IsNode x := h.node_of_steps hsteps
        cases x with
        | subject s => exact .inr ⟨s, hx, rfl, (h.mem_metFrom (hclean _ hx)).mpr hsteps⟩
        | literal l =>
          -- From a literal there is only the pair of it with itself.
          obtain ⟨hz, rfl⟩ := eq_of_steps (hclean _ hx) hsteps
          exact .inl ⟨hz, _, hx, rfl⟩

/-- A repetition yields each pair once. -/
theorem nodup_evalMul (flat : Option FlatSpec) (zero more : Bool) (subj : Option Subject)
    (obj : Option Term) : (evalMul g inner flat zero more subj obj).Nodup := by
  have hpair : ∀ (c : Bool) (x : Term), (if c then emit (x, x) [] else [] : List Pair).Nodup := by
    intro c x
    cases c
    · exact nodup_nil
    · exact nodup_emit _ nodup_nil
  -- Every loop of the function goes through `emit`, which looks a pair up before it adds it.
  have hall : ∀ (pairs : List Pair) {out : List Pair}, out.Nodup →
      (pairs.foldl (fun out r => emit r out) out).Nodup := by
    intro pairs out hout
    have hnodup := nodup_foldl_emit id (fun _ => true) pairs hout
    simpa using hnodup
  match subj, obj with
  | some s, obj =>
    rw [evalMul]
    split
    · exact hall _ (hpair _ _)
    · exact nodup_fwdFrom _ _ _ _ _ (hpair _ _)
  | none, some o =>
    rw [evalMul]
    split
    · exact hall _ (hpair _ _)
    · exact nodup_bwdTo _ _ _ _ (hpair _ _)
  | none, none =>
    have hzero : (if zero then g.allNodes.foldl (fun out n => emit (n, n) out) []
        else [] : List Pair).Nodup := by
      cases zero
      · exact nodup_nil
      · have hnodup := nodup_foldl_emit (fun n : Term => (n, n)) (fun _ => true) g.allNodes
          (@nodup_nil Pair)
        simpa using hnodup
    refine foldlRecOn _ _ hzero fun out hout n _ => ?_
    split
    · exact nodup_fwdFrom _ _ _ _ _ hout
    · exact hout

end

end GoRdf
