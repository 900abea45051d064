import Mathlib.Data.List.Basic
import StackScript.Session.Sources

/-!
# The order of names

Names are put in the dictionary order of their bytes (`NameBefore`). The order is linear on texts,
so what a directory holds comes out of `sorted` in strictly rising order of the names, whatever
order it had (`pairwise_sorted`).
-/

namespace StackScript.Text

/-- The first name comes before the second one in a dictionary of bytes. -/
def NameBefore (a b : String) : Prop :=
  List.Lex (fun x y : UInt8 => x.toNat < y.toNat) (utf8Bytes a) (utf8Bytes b)

theorem not_nameBefore_self (name : String) : ¬ NameBefore name name :=
  List.lex_irrefl (fun byte => Nat.lt_irrefl byte.toNat) (utf8Bytes name)

/-- Texts with the same bytes are the same. -/
theorem utf8Bytes_inj {a b : String} : utf8Bytes a = utf8Bytes b ↔ a = b := by
  refine ⟨fun h => ?_, congrArg utf8Bytes⟩
  have hread := ofUtf8?_utf8Bytes a
  rw [h, ofUtf8?_utf8Bytes] at hread
  exact (Option.some.inj hread).symm

/-- The first bytes that differ decide. -/
theorem notBehind_cons_iff {x y : UInt8} {a b : List UInt8} :
    notBehind (x :: a) (y :: b) = true ↔
      x.toNat < y.toNat ∨ x.toNat = y.toNat ∧ notBehind a b = true := by
  rw [notBehind, Bool.or_eq_true, Bool.and_eq_true, decide_eq_true_iff, decide_eq_true_iff,
    UInt8.lt_iff_toNat_lt, UInt8.toNat_inj]

theorem notBehind_total (a b : List UInt8) : notBehind a b = true ∨ notBehind b a = true := by
  induction a generalizing b with
  | nil => exact .inl rfl
  | cons x a ih =>
    cases b with
    | nil => exact .inr rfl
    | cons y b =>
      rw [notBehind_cons_iff, notBehind_cons_iff]
      rcases Nat.lt_trichotomy x.toNat y.toNat with hlt | heq | hgt
      · exact .inl (.inl hlt)
      · exact (ih b).imp (fun h => .inr ⟨heq, h⟩) fun h => .inr ⟨heq.symm, h⟩
      · exact .inr (.inl hgt)

theorem notBehind_trans {a b c : List UInt8} (hab : notBehind a b = true)
    (hbc : notBehind b c = true) : notBehind a c = true := by
  induction a generalizing b c with
  | nil => rfl
  | cons x a ih =>
    cases b with
    | nil => cases hab
    | cons y b =>
      cases c with
      | nil => cases hbc
      | cons z c =>
        rw [notBehind_cons_iff] at hab hbc ⊢
        rcases hab with hxy | ⟨hxy, hab⟩
        · rcases hbc with hyz | ⟨hyz, -⟩
          · exact .inl (Nat.lt_trans hxy hyz)
          · exact .inl (hyz ▸ hxy)
        · rcases hbc with hyz | ⟨hyz, hbc⟩
          · exact .inl (hxy ▸ hyz)
          · exact .inr ⟨hxy.trans hyz, ih hab hbc⟩

/-- Bytes that are not behind others come before them, or are the same. -/
theorem lex_of_notBehind {a b : List UInt8} (h : notBehind a b = true) :
    a = b ∨ List.Lex (fun x y : UInt8 => x.toNat < y.toNat) a b := by
  induction a generalizing b with
  | nil =>
    cases b with
    | nil => exact .inl rfl
    | cons y b => exact .inr .nil
  | cons x a ih =>
    cases b with
    | nil => cases h
    | cons y b =>
      rcases notBehind_cons_iff.mp h with hlt | ⟨heq, hrest⟩
      · exact .inr (.rel hlt)
      · obtain rfl := UInt8.toNat_inj.mp heq
        exact (ih hrest).imp (congrArg (x :: ·)) .cons

end StackScript.Text

namespace StackScript.Session

open StackScript.Files StackScript.Text

variable {children : List (String × Entry)}

/-- Sorting keeps the children and adds none. -/
theorem mem_sorted {child : String × Entry} : child ∈ sorted children ↔ child ∈ children :=
  (List.mergeSort_perm children _).mem_iff

/-- What a directory holds is put in rising order of the names. -/
theorem pairwise_sorted (hdistinct : (children.map Prod.fst).Nodup) :
    (sorted children).Pairwise fun a b => NameBefore a.1 b.1 := by
  have hordered : (sorted children).Pairwise fun a b =>
      notBehind (utf8Bytes a.1) (utf8Bytes b.1) = true := by
    refine List.pairwise_mergeSort ?_ ?_ children
    · intro a b c hab hbc
      exact notBehind_trans hab hbc
    · intro a b
      exact (Bool.or_eq_true _ _).mpr (notBehind_total _ _)
  have hnames : ((sorted children).map Prod.fst).Nodup :=
    ((List.mergeSort_perm children _).map Prod.fst).nodup_iff.mpr hdistinct
  refine (hordered.and (List.pairwise_map.mp hnames)).imp fun ⟨hbehind, hne⟩ => ?_
  exact (lex_of_notBehind hbehind).resolve_left fun hbytes => hne (utf8Bytes_inj.mp hbytes)

end StackScript.Session
