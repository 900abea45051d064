import Mathlib.Algebra.Order.BigOperators.Group.List
import Mathlib.Algebra.Order.Ring.Nat
import StackScript.Proofs.Settling

/-!
# When rounds stop

Rounds of inference go on until one of them settles nothing. Every method that is settled is one
less to settle, so the bound on the number of rounds is never what stops them (`stopsAfter_settle`),
and in the end no method can be settled any more (`settleMethod_settle`).
-/

namespace StackScript.Typing

open StackScript.Source StackScript.Syntax

theorem countP_flatMap_lt {α β : Type} {p : β → Bool} {xs : List α} {f g : α → List β}
    (hle : ∀ x ∈ xs, (f x).countP p ≤ (g x).countP p)
    (hlt : ∃ x ∈ xs, (f x).countP p < (g x).countP p) :
    (xs.flatMap f).countP p < (xs.flatMap g).countP p := by
  rw [List.countP_flatMap, List.countP_flatMap]
  exact List.sum_lt_sum _ _ hle hlt

theorem countP_map_le {α : Type} {p : α → Bool} {f : α → α} (h : ∀ x, p (f x) → p x)
    (xs : List α) : (xs.map f).countP p ≤ xs.countP p := by
  rw [List.countP_map]
  exact List.countP_mono_left fun x _ => h x

theorem countP_map_lt {α : Type} {p : α → Bool} {f : α → α} (h : ∀ x, p (f x) → p x)
    {xs : List α} {x : α} (hx : x ∈ xs) (hp : p x) (hf : p (f x) = false) :
    (xs.map f).countP p < xs.countP p := by
  obtain ⟨before, after, rfl⟩ := List.append_of_mem hx
  have hbefore := countP_map_le h before
  have hafter := countP_map_le h after
  simp only [List.map_append, List.map_cons, List.countP_append, List.countP_cons, hp, hf, if_true]
  simp only [Bool.false_eq_true, if_false]
  omega

/-! ## Methods left to settle -/

/-- Finding the return type of a method leaves one less to be found. -/
theorem pendingCount_setReturn {registry : Registry} {cls method : String} {entry : MethodEntry}
    (hentry : registry.method? cls method = some entry) (hpending : entry.ret = .pending) (t : Ty) :
    (registry.setReturn cls method (.inferred t)).pendingCount < registry.pendingCount := by
  obtain ⟨found, hfound, hmethod⟩ := Option.bind_eq_some_iff.mp hentry
  have hname : found.name = cls := Registry.name_of_class? hfound
  unfold Registry.pendingCount
  rw [Registry.setReturn, Registry.modify, List.flatMap_map]
  -- a method that gets a type is pending no more, and the others stay as they are
  have less : ∀ m : MethodEntry,
      decide ((if m.name = method then { m with ret := .inferred t } else m).ret = .pending) →
        decide (m.ret = .pending) := by
    intro m hm
    by_cases h : m.name = method
    · simp [h] at hm
    · rwa [if_neg h] at hm
  apply countP_flatMap_lt
  · intro other _
    by_cases h : other.name = cls
    · rw [if_pos h]
      exact countP_map_le less other.methods
    · rw [if_neg h]
  · refine ⟨found, List.mem_of_find?_eq_some hfound, ?_⟩
    rw [if_pos hname]
    refine countP_map_lt less (List.mem_of_find?_eq_some hmethod) (decide_eq_true hpending) ?_
    rw [if_pos (ClassEntry.name_of_method? hmethod)]
    rfl

theorem pendingCount_settleMethod (externals : Externals) (registry : Registry)
    (place : MethodPlace) :
    settleMethod externals registry place = registry ∨
      (settleMethod externals registry place).pendingCount < registry.pendingCount := by
  obtain ⟨file, cls, m⟩ := place
  rcases settleMethod_cases externals registry file cls m with
    h | ⟨entry, t, hentry, hpending, -, h⟩
  · exact .inl h
  · rw [h]
    exact .inr (pendingCount_setReturn hentry hpending t)

/-- A round that leaves as many methods to settle settled none of them. -/
theorem settleRound_cases (externals : Externals) (places : List MethodPlace)
    (registry : Registry) :
    (settleRound externals places registry = registry ∧
        ∀ place ∈ places, settleMethod externals registry place = registry) ∨
      (settleRound externals places registry).pendingCount < registry.pendingCount := by
  unfold settleRound
  induction places generalizing registry with
  | nil => exact .inl ⟨rfl, fun _ h => nomatch h⟩
  | cons place rest ih =>
    rw [List.foldl_cons]
    rcases pendingCount_settleMethod externals registry place with hsame | hless
    · rw [hsame]
      rcases ih registry with ⟨hround, hrest⟩ | hless
      · refine .inl ⟨hround, fun other hother => ?_⟩
        rcases List.mem_cons.mp hother with rfl | hother
        · exact hsame
        · exact hrest other hother
      · exact .inr hless
    · rcases ih (settleMethod externals registry place) with ⟨hround, -⟩ | hmore
      · rw [hround]
        exact .inr hless
      · exact .inr (hmore.trans hless)

/-! ## The loop -/

/-- The loop ends with `last` after that many rounds. A method that is settled changes the registry,
so a round after which the registry is the same was without progress, and is the last one. -/
inductive StopsAfter (externals : Externals) (places : List MethodPlace) :
    Nat → Registry → Registry → Prop where
  | stop {registry} (hsame : settleRound externals places registry = registry) :
      StopsAfter externals places 1 registry registry
  | again {rounds registry last} (hnew : settleRound externals places registry ≠ registry)
      (hnext : StopsAfter externals places rounds (settleRound externals places registry) last) :
      StopsAfter externals places (rounds + 1) registry last

/-- Rounds that are bounded by more than the methods left to settle stop before their bound. -/
theorem stopsAfter_settleRounds (externals : Externals) (places : List MethodPlace) (bound : Nat)
    (registry : Registry) (hbound : registry.pendingCount < bound) :
    ∃ rounds ≤ registry.pendingCount + 1,
      StopsAfter externals places rounds registry
        (settleRounds externals places bound registry) := by
  induction bound generalizing registry with
  | zero => exact absurd hbound (Nat.not_lt_zero _)
  | succ bound ih =>
    simp only [settleRounds]
    rcases settleRound_cases externals places registry with ⟨hround, -⟩ | hless
    · rw [hround, if_pos rfl]
      exact ⟨1, Nat.succ_le_succ (Nat.zero_le _), .stop hround⟩
    · rw [if_neg (Nat.ne_of_lt hless)]
      have hbound' := Nat.lt_of_lt_of_le hless (Nat.lt_succ_iff.mp hbound)
      obtain ⟨rounds, hrounds, hstops⟩ := ih _ hbound'
      refine ⟨rounds + 1, ?_, .again (fun hsame => ?_) hstops⟩
      · -- this round settled a method, which pays for it
        exact Nat.succ_le_succ (hrounds.trans hless)
      · rw [hsame] at hless
        exact Nat.lt_irrefl _ hless

/-- The loop stops after at most one round more than there are methods to settle. -/
theorem stopsAfter_settle (externals : Externals) (places : List MethodPlace)
    (registry : Registry) :
    ∃ rounds ≤ registry.pendingCount + 1,
      StopsAfter externals places rounds registry (settle externals places registry) :=
  stopsAfter_settleRounds externals places _ registry (Nat.lt_succ_self _)

theorem StopsAfter.settleRound_eq {externals : Externals} {places : List MethodPlace}
    {rounds : Nat} {registry last : Registry}
    (h : StopsAfter externals places rounds registry last) :
    settleRound externals places last = last := by
  induction h with
  | stop hsame => exact hsame
  | again _ _ ih => exact ih

/-- After all rounds, no method of the batch can be settled any more. -/
theorem settleMethod_settle (externals : Externals) {places : List MethodPlace}
    {place : MethodPlace} (hplace : place ∈ places) (registry : Registry) :
    settleMethod externals (settle externals places registry) place =
      settle externals places registry := by
  obtain ⟨rounds, -, hstops⟩ := stopsAfter_settle externals places registry
  rcases settleRound_cases externals places (settle externals places registry) with
    ⟨-, hall⟩ | hless
  · exact hall place hplace
  · rw [hstops.settleRound_eq] at hless
    exact absurd hless (Nat.lt_irrefl _)

end StackScript.Typing
