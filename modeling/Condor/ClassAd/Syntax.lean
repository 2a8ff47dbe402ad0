import Condor.Lib.CText
import Condor.Lib.FlatMap
import Mathlib.Data.List.Lex

/-!
# Expressions — the trees of ClassAds

The trees that the parser builds and the printer prints: literals, attribute references,
operations, function calls, ads and lists. An ad holds its attributes in the order of their names.

* `Expr.all`: a property of all nodes, **`Expr.sameAs_refl`**.
-/

namespace Condor

open Bool

/-- The order of attribute names: by length, then as `strcasecmp` compares them. -/
def nameRank (s : Text) : List ℕ := s.length :: (caseFold s).map Char.toNat

theorem nameRank_eq_iff {a b : Text} : nameRank a = nameRank b ↔ caseEq a b = true := by
  simp only [nameRank, caseEq, decide_eq_true_eq, List.cons.injEq]
  constructor
  · rintro ⟨-, h⟩
    exact List.map_injective_iff.mpr (fun _ _ hc => Char.toNat_inj.mp hc) h
  · intro h
    have hlen := congrArg List.length h
    simp only [caseFold, List.length_map] at hlen
    exact ⟨hlen, by rw [h]⟩

theorem caseEq_comm (a b : Text) : caseEq a b = caseEq b a := by
  simp [caseEq, eq_comm]

namespace ClassAd

inductive OpKind where
  | lessThan
  | lessOrEqual
  | notEqual
  | equal
  | greaterOrEqual
  | greaterThan
  | metaEqual
  | metaNotEqual
  | unaryPlus
  | unaryMinus
  | addition
  | subtraction
  | multiplication
  | division
  | modulus
  | logicalNot
  | logicalOr
  | logicalAnd
  | bitwiseNot
  | bitwiseOr
  | bitwiseXor
  | bitwiseAnd
  | leftShift
  | rightShift
  | urightShift
  | parentheses
  | subscript
deriving DecidableEq, Repr

/-- `Literal`. A real is given by the text that `strtod` reads, and a time by its text. -/
inductive Literal where
  | undefined
  | error
  | boolean (b : Bool)
  | integer (i : ℤ)
  | real (digits : Text)
  | string (s : Text)
  | absTime (s : Text)
  | relTime (s : Text)
deriving DecidableEq, Repr

/-- `ExprTree`. A ternary operation without a middle expression is `e ?: e`. -/
inductive Expr where
  | literal (l : Literal)
  | attrRef (scope : Option Expr) (name : Text) (absolute : Bool)
  | op1 (op : OpKind) (e : Expr)
  | op2 (op : OpKind) (l r : Expr)
  | op3 (c : Expr) (m : Option Expr) (r : Expr)
  | call (name : Text) (args : List Expr)
  | classAd (attrs : List (Text × Expr))
  | list (es : List Expr)
deriving Repr

/-! ## Equality of trees -/

/-- What is known of the numbers behind the texts of reals and times. -/
structure SameNumber where
  real : Text → Text → Bool
  absTime : Text → Text → Bool
  relTime : Text → Text → Bool

variable (N : SameNumber)

/-- `SameAs` of the literals. -/
def Literal.sameAs : Literal → Literal → Bool
  | undefined, undefined => true
  | error, error => true
  | boolean a, boolean b => a == b
  | integer a, integer b => a == b
  | real a, real b => N.real a b
  | string a, string b => a == b
  | absTime a, absTime b => N.absTime a b
  | relTime a, relTime b => N.relTime a b
  | _, _ => false

mutual

def Expr.sameAs : Expr → Expr → Bool
  | .literal a, .literal b => a.sameAs N b
  | .attrRef s n a, .attrRef s' n' a' => a == a' && n == n' && sameChild s s'
  | .op1 o e, .op1 o' e' => o == o' && e.sameAs e'
  | .op2 o l r, .op2 o' l' r' => o == o' && l.sameAs l' && r.sameAs r'
  | .op3 c m r, .op3 c' m' r' => c.sameAs c' && sameChild m m' && r.sameAs r'
  | .call f as, .call f' as' => f == f' && sameList as as'
  | .classAd as, .classAd bs => as.length == bs.length && sameAttrs as bs
  | .list as, .list bs => sameList as bs
  | _, _ => false
termination_by structural e => e

def sameChild : Option Expr → Option Expr → Bool
  | none, none => true
  | some a, some b => a.sameAs b
  | _, _ => false
termination_by structural e => e

def sameList : List Expr → List Expr → Bool
  | [], [] => true
  | a :: as, b :: bs => a.sameAs b && sameList as bs
  | _, _ => false
termination_by structural e => e

/-- Every attribute is found in the other ad, with the same expression. -/
def sameAttrs : List (Text × Expr) → List (Text × Expr) → Bool
  | [], _ => true
  | a :: as, bs => sameAttr a bs && sameAttrs as bs
termination_by structural e => e

def sameAttr : Text × Expr → List (Text × Expr) → Bool
  | (n, e), bs =>
    match Flat.find nameRank n bs with
    | some e' => e.sameAs e'
    | none => false
termination_by structural e => e

end

/-! ## Properties of all nodes -/

mutual

def Expr.all (p : Expr → Bool) : Expr → Bool
  | .literal l => p (.literal l)
  | .attrRef s n a => p (.attrRef s n a) && allChild p s
  | .op1 o e => p (.op1 o e) && e.all p
  | .op2 o l r => p (.op2 o l r) && l.all p && r.all p
  | .op3 c m r => p (.op3 c m r) && c.all p && allChild p m && r.all p
  | .call f as => p (.call f as) && allList p as
  | .classAd as => p (.classAd as) && allAttrs p as
  | .list as => p (.list as) && allList p as

def allChild (p : Expr → Bool) : Option Expr → Bool
  | none => true
  | some e => e.all p

def allList (p : Expr → Bool) : List Expr → Bool
  | [] => true
  | e :: es => e.all p && allList p es

def allAttrs (p : Expr → Bool) : List (Text × Expr) → Bool
  | [] => true
  | a :: as => allAttr p a && allAttrs p as

def allAttr (p : Expr → Bool) : Text × Expr → Bool
  | (_, e) => e.all p

end

/-- The literals without a number that is only known as a text. -/
def Literal.isPlain : Literal → Bool
  | real _ | absTime _ | relTime _ => false
  | _ => true

/-- The node is no real and no time, and the attributes of an ad are in order. -/
def Expr.isRegular : Expr → Bool
  | .literal l => l.isPlain
  | .classAd as => decide (Flat.Sorted nameRank as)
  | _ => true

theorem Literal.sameAs_refl {l : Literal} (h : l.isPlain = true) : l.sameAs N l = true := by
  cases l <;> simp_all [Literal.isPlain, Literal.sameAs]

mutual

/-- **A tree without reals and times is the same as itself.** -/
theorem Expr.sameAs_refl : ∀ e : Expr, e.all Expr.isRegular = true → e.sameAs N e = true
  | .literal l, h => Literal.sameAs_refl N h
  | .attrRef s n a, h => by
    simp only [Expr.all, and_eq_true] at h
    simp [Expr.sameAs, sameChild_refl s h.2]
  | .op1 o e, h => by
    simp only [Expr.all, and_eq_true] at h
    simp [Expr.sameAs, Expr.sameAs_refl e h.2]
  | .op2 o l r, h => by
    simp only [Expr.all, and_eq_true] at h
    simp [Expr.sameAs, Expr.sameAs_refl l h.1.2, Expr.sameAs_refl r h.2]
  | .op3 c m r, h => by
    simp only [Expr.all, and_eq_true] at h
    simp [Expr.sameAs, Expr.sameAs_refl c h.1.1.2, sameChild_refl m h.1.2, Expr.sameAs_refl r h.2]
  | .call f as, h => by
    simp only [Expr.all, and_eq_true] at h
    simp [Expr.sameAs, sameList_refl as h.2]
  | .classAd as, h => by
    simp only [Expr.all, and_eq_true] at h
    have hs : Flat.Sorted nameRank as := by simpa [Expr.isRegular] using h.1
    simp [Expr.sameAs, sameAttrs_refl as h.2 as fun n e hm =>
      (Flat.find_eq_some_iff hs).mpr ⟨n, rfl, hm⟩]
  | .list as, h => by
    simp only [Expr.all, and_eq_true] at h
    simp [Expr.sameAs, sameList_refl as h.2]

theorem sameChild_refl : ∀ m : Option Expr, allChild Expr.isRegular m = true →
    sameChild N m m = true
  | none, _ => rfl
  | some e, h => Expr.sameAs_refl e h

theorem sameList_refl : ∀ as : List Expr, allList Expr.isRegular as = true → sameList N as as = true
  | [], _ => rfl
  | e :: as, h => by
    simp only [allList, and_eq_true] at h
    simp [sameList, Expr.sameAs_refl e h.1, sameList_refl as h.2]

theorem sameAttrs_refl : ∀ as : List (Text × Expr), allAttrs Expr.isRegular as = true → ∀ bs,
    (∀ n e, (n, e) ∈ as → Flat.find nameRank n bs = some e) → sameAttrs N as bs = true
  | [], _, _, _ => rfl
  | a :: as, h, bs, hbs => by
    simp only [allAttrs, and_eq_true] at h
    simp [sameAttrs, sameAttr_refl a h.1 bs (hbs a.1 a.2 (by simp)),
      sameAttrs_refl as h.2 bs fun n' e' hm => hbs n' e' (by simp [hm])]

theorem sameAttr_refl : ∀ a : Text × Expr, allAttr Expr.isRegular a = true → ∀ bs,
    Flat.find nameRank a.1 bs = some a.2 → sameAttr N a bs = true
  | (n, e), h, bs, hbs => by
    simp [sameAttr, hbs, Expr.sameAs_refl e h]

end

variable {p : Expr → Bool}

theorem allList_iff {as : List Expr} : allList p as = true ↔ ∀ e ∈ as, e.all p = true := by
  induction as with
  | nil => simp [allList]
  | cons e as ih => simp [allList, ih]

theorem allAttrs_iff {as : List (Text × Expr)} :
    allAttrs p as = true ↔ ∀ a ∈ as, a.2.all p = true := by
  induction as with
  | nil => simp [allAttrs]
  | cons a as ih =>
    obtain ⟨n, e⟩ := a
    simp [allAttrs, allAttr, ih]

end Condor.ClassAd
