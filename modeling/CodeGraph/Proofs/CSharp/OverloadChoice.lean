import CodeGraph.CSharp.Target
import Mathlib.Data.List.Find

namespace CodeGraph.CSharp

open CodeGraph.Text

/-!
# The overload that a call means

Candidates are ranked: those with as many parameters as the call has arguments by their matches, before
those with more parameters, before those with fewer. The first candidate of the greatest rank is taken,
so that only ties are settled by the order of the candidates. An argument whose type becomes known to be
what the chosen candidate expects raises its rank by one, and no other rank by more.
-/

variable {α : Type}

/-! ## The first of the best -/

section FirstBest

variable {score : α → Nat} {l : List α} {a : α}

theorem firstBest_eq_none_iff : firstBest score l = none ↔ l = [] := by
  cases l with
  | nil => simp [firstBest]
  | cons x l =>
      rw [firstBest]
      split
      · split <;> simp
      · simp

theorem firstBest_eq_some_iff :
    firstBest score l = some a ↔ ∃ before behind, l = before ++ a :: behind ∧
      (∀ b ∈ before, score b < score a) ∧ ∀ b ∈ behind, score b ≤ score a := by
  induction l generalizing a with
  | nil => simp [firstBest]
  | cons x l ih =>
      constructor
      · intro h
        rw [firstBest] at h
        split at h
        · next b hb =>
            obtain ⟨before, behind, rfl, hbefore, hbehind⟩ := ih.mp hb
            split at h
            · next hlt =>
                obtain rfl := Option.some.inj h
                exact ⟨x :: before, behind, rfl, List.forall_mem_cons.mpr ⟨hlt, hbefore⟩, hbehind⟩
            · next hle =>
                obtain rfl := Option.some.inj h
                have hbest : score b ≤ score x := Nat.le_of_not_lt hle
                refine ⟨[], before ++ b :: behind, rfl, by simp, fun c hc => ?_⟩
                rcases List.mem_append.mp hc with hc | hc
                · exact Nat.le_trans (Nat.le_of_lt (hbefore c hc)) hbest
                · rcases List.mem_cons.mp hc with rfl | hc
                  · exact hbest
                  · exact Nat.le_trans (hbehind c hc) hbest
        · next hnone =>
            obtain rfl := Option.some.inj h
            obtain rfl := firstBest_eq_none_iff.mp hnone
            exact ⟨[], [], rfl, by simp, by simp⟩
      · rintro ⟨before, behind, hl, hbefore, hbehind⟩
        rw [firstBest]
        cases before with
        | nil =>
            obtain ⟨rfl, rfl⟩ := List.cons.inj hl
            cases hb : firstBest score l with
            | none => rfl
            | some b =>
                obtain ⟨first, rest, rfl, -⟩ := ih.mp hb
                exact if_neg (Nat.not_lt_of_le (hbehind b (by simp)))
        | cons y before =>
            obtain ⟨rfl, hrest⟩ := List.cons.inj hl
            obtain ⟨hlt, hbefore⟩ := List.forall_mem_cons.mp hbefore
            rw [ih.mpr ⟨before, behind, hrest, hbefore, hbehind⟩]
            exact if_pos hlt

/-- Which elements are best does not depend on the order; the order says which of them comes first. -/
theorem firstBest_eq_find? (score : α → Nat) (l : List α) :
    firstBest score l = l.find? fun a => l.all fun b => score b ≤ score a := by
  apply Option.ext
  intro a
  rw [firstBest_eq_some_iff, List.find?_eq_some_iff_append, List.all_eq_true]
  constructor
  · rintro ⟨before, behind, rfl, hbefore, hbehind⟩
    refine ⟨fun b hb => decide_eq_true ?_, before, behind, rfl, fun b hb => ?_⟩
    · rcases List.mem_append.mp hb with hb | hb
      · exact Nat.le_of_lt (hbefore b hb)
      · rcases List.mem_cons.mp hb with rfl | hb
        · exact Nat.le_refl _
        · exact hbehind b hb
    · rw [Bool.not_eq_true', List.all_eq_false]
      exact ⟨a, by simp, by simpa using hbefore b hb⟩
  · rintro ⟨hbest, before, behind, rfl, hbefore⟩
    refine ⟨before, behind, rfl, fun b hb => ?_, fun b hb => of_decide_eq_true (hbest b (by simp [hb]))⟩
    have hworse := hbefore b hb
    rw [Bool.not_eq_true', List.all_eq_false] at hworse
    obtain ⟨d, hd, hlt⟩ := hworse
    have hle : score d ≤ score a := of_decide_eq_true (hbest d hd)
    have hgreater : score b < score d := by simpa using hlt
    exact Nat.lt_of_lt_of_le hgreater hle

end FirstBest

/-! ## Ranks -/

/-- How well parameters take the arguments of a call. -/
def callRank (params : List String) (args : List (Option String)) : Nat :=
  if params.length = args.length then matchCount params args + 2
  else if args.length < params.length then 1 else 0

section Ranks

variable {params : List String} {args : List (Option String)}

theorem callRank_fitting (h : params.length = args.length) :
    callRank params args = matchCount params args + 2 :=
  if_pos h

theorem callRank_longer (h : args.length < params.length) : callRank params args = 1 := by
  rw [callRank, if_neg (Nat.ne_of_gt h), if_pos h]

theorem callRank_shorter (h : params.length < args.length) : callRank params args = 0 := by
  rw [callRank, if_neg (Nat.ne_of_lt h), if_neg (Nat.lt_asymm h)]

theorem two_le_callRank_iff : 2 ≤ callRank params args ↔ params.length = args.length := by
  unfold callRank
  split
  · simp_all
  · split <;> simp_all

theorem callRank_pos_iff : 0 < callRank params args ↔ args.length ≤ params.length := by
  unfold callRank
  split
  · omega
  · split <;> omega

end Ranks

/-! ## The choice -/

section Choice

variable {signature : α → List String} {candidates : List α} {args : List (Option String)}

/-- No candidate outranks this one. -/
def IsBest (signature : α → List String) (candidates : List α) (args : List (Option String)) (c : α) :
    Prop :=
  ∀ d ∈ candidates, callRank (signature d) args ≤ callRank (signature c) args

theorem isBest_fitting_iff (hfit : ∃ d ∈ candidates, (signature d).length = args.length) {c : α} :
    IsBest signature candidates args c ↔ (signature c).length = args.length ∧
      ∀ d ∈ candidates, (signature d).length = args.length →
        matchCount (signature d) args ≤ matchCount (signature c) args := by
  constructor
  · intro hbest
    obtain ⟨d₀, hd₀, hlength⟩ := hfit
    have hc : (signature c).length = args.length :=
      two_le_callRank_iff.mp (Nat.le_trans (two_le_callRank_iff.mpr hlength) (hbest d₀ hd₀))
    refine ⟨hc, fun d hd hdlength => ?_⟩
    have hrank := hbest d hd
    rw [callRank_fitting hc, callRank_fitting hdlength] at hrank
    exact Nat.le_of_add_le_add_right hrank
  · rintro ⟨hc, hmatches⟩ d hd
    rw [callRank_fitting hc]
    by_cases hdlength : (signature d).length = args.length
    · rw [callRank_fitting hdlength]
      exact Nat.add_le_add_right (hmatches d hd hdlength) 2
    · have hlow := mt two_le_callRank_iff.mp hdlength
      omega

theorem isBest_longer_iff (hnone : ∀ d ∈ candidates, (signature d).length ≠ args.length)
    (hlonger : ∃ d ∈ candidates, args.length < (signature d).length) {c : α} (hc : c ∈ candidates) :
    IsBest signature candidates args c ↔ args.length < (signature c).length := by
  constructor
  · intro hbest
    obtain ⟨d₀, hd₀, hlength⟩ := hlonger
    have hpos := hbest d₀ hd₀
    rw [callRank_longer hlength] at hpos
    exact Nat.lt_of_le_of_ne (callRank_pos_iff.mp hpos) (hnone c hc).symm
  · intro hlength d hd
    have hlow := mt two_le_callRank_iff.mp (hnone d hd)
    rw [callRank_longer hlength]
    omega

theorem isBest_of_shorter (hshorter : ∀ d ∈ candidates, (signature d).length < args.length) (c : α) :
    IsBest signature candidates args c := by
  intro d hd
  rw [callRank_shorter (hshorter d hd)]
  exact Nat.zero_le _

/-- The ranks say the same as trying first the candidates that fit, then the longer ones, then any. -/
theorem chooseOverload_eq_firstBest (signature : α → List String) (candidates : List α)
    (args : List (Option String)) :
    chooseOverload signature candidates args =
      firstBest (fun c => callRank (signature c) args) candidates := by
  have hfind : firstBest (fun c => callRank (signature c) args) candidates =
      candidates.find? fun c => candidates.all fun d =>
        callRank (signature d) args ≤ callRank (signature c) args := firstBest_eq_find? _ _
  have hbest : ∀ c, (candidates.all fun d =>
      decide (callRank (signature d) args ≤ callRank (signature c) args)) = true ↔
        IsBest signature candidates args c := by
    simp [IsBest]
  have hsome : candidates ≠ [] →
      (firstBest (fun c => callRank (signature c) args) candidates).isSome := fun hne =>
    Option.isSome_iff_ne_none.mpr fun hnone => hne (firstBest_eq_none_iff.mp hnone)
  rw [chooseOverload]
  by_cases hfit : ∃ d ∈ candidates, (signature d).length = args.length
  · have hfirst : firstBest (fun c => matchCount (signature c) args)
        (candidates.filter fun c => (signature c).length == args.length) =
          firstBest (fun c => callRank (signature c) args) candidates := by
      rw [firstBest_eq_find?, List.find?_filter, hfind]
      refine List.find?_congr fun c _ => ?_
      rw [Bool.eq_iff_iff, hbest, isBest_fitting_iff hfit]
      simp [imp_iff_not_or]
    obtain ⟨d, hd, -⟩ := hfit
    rw [hfirst, Option.or_of_isSome (hsome (List.ne_nil_of_mem hd))]
  · have hnone : ∀ d ∈ candidates, (signature d).length ≠ args.length :=
      fun d hd heq => hfit ⟨d, hd, heq⟩
    have hempty : (candidates.filter fun c => (signature c).length == args.length) = [] :=
      List.filter_eq_nil_iff.mpr (by simpa using hnone)
    rw [hempty, firstBest, Option.none_or]
    by_cases hlonger : ∃ d ∈ candidates, args.length < (signature d).length
    · have hfirst : (candidates.find? fun c => args.length < (signature c).length) =
          firstBest (fun c => callRank (signature c) args) candidates := by
        rw [hfind]
        refine List.find?_congr fun c hc => ?_
        rw [Bool.eq_iff_iff, hbest, isBest_longer_iff hnone hlonger hc, decide_eq_true_eq]
      obtain ⟨d, hd, -⟩ := hlonger
      rw [hfirst, Option.or_of_isSome (hsome (List.ne_nil_of_mem hd))]
    · have hmissing : (candidates.find? fun c => args.length < (signature c).length) = none := by
        simpa using hlonger
      have hshorter : ∀ d ∈ candidates, (signature d).length < args.length := fun d hd =>
        Nat.lt_of_le_of_ne (Nat.le_of_not_lt fun hlt => hlonger ⟨d, hd, hlt⟩) (hnone d hd)
      rw [hmissing, Option.none_or, hfind]
      cases candidates with
      | nil => rfl
      | cons c candidates =>
          have hfirst := (hbest c).mpr (isBest_of_shorter hshorter c)
          simp only [List.head?_cons, List.find?_cons, hfirst]

theorem chooseOverload_eq_some_iff {c : α} :
    chooseOverload signature candidates args = some c ↔ ∃ before behind,
      candidates = before ++ c :: behind ∧
        (∀ d ∈ before, callRank (signature d) args < callRank (signature c) args) ∧
        ∀ d ∈ behind, callRank (signature d) args ≤ callRank (signature c) args := by
  rw [chooseOverload_eq_firstBest, firstBest_eq_some_iff]

theorem isBest_of_chooseOverload {c : α} (h : chooseOverload signature candidates args = some c) :
    c ∈ candidates ∧ IsBest signature candidates args c := by
  rw [chooseOverload_eq_firstBest, firstBest_eq_find?] at h
  refine ⟨List.mem_of_find?_eq_some h, fun d hd => ?_⟩
  have hbest := List.find?_some h
  exact of_decide_eq_true (List.all_eq_true.mp hbest d hd)

end Choice

/-! ## Arguments that become known -/

section Known

variable {params : List String} {args : List (Option String)} {i : Nat}

theorem matchCount_cons (param : String) (params : List String) (arg : Option String)
    (args : List (Option String)) :
    matchCount (param :: params) (arg :: args) =
      matchCount params args + if arg = some (trimEndMatches (· == '&') param) then 1 else 0 := by
  simp [matchCount, List.countP_cons]

theorem matchCount_set_le (h : args[i]? = some none) (arg : Option String) :
    matchCount params (args.set i arg) ≤ matchCount params args + 1 := by
  induction params generalizing args i with
  | nil => simp [matchCount]
  | cons param params ih =>
      cases args with
      | nil => simp at h
      | cons first args =>
          cases i with
          | zero =>
              obtain rfl : first = none := by simpa using h
              rw [List.set_cons_zero, matchCount_cons, matchCount_cons]
              split <;> simp
          | succ i =>
              have hmore := @ih args i (by simpa using h)
              rw [List.set_cons_succ, matchCount_cons, matchCount_cons]
              omega

/-- An argument of the expected type is one match more. -/
theorem matchCount_set_expected (h : args[i]? = some none) {param : String}
    (hparam : params[i]? = some param) :
    matchCount params (args.set i (some (trimEndMatches (· == '&') param))) =
      matchCount params args + 1 := by
  induction params generalizing args i with
  | nil => simp at hparam
  | cons first params ih =>
      cases args with
      | nil => simp at h
      | cons arg args =>
          cases i with
          | zero =>
              obtain rfl : first = param := by simpa using hparam
              obtain rfl : arg = none := by simpa using h
              simp [matchCount_cons]
          | succ i =>
              have hmore := @ih args i (by simpa using h) (by simpa using hparam)
              rw [List.set_cons_succ, matchCount_cons, matchCount_cons, hmore]
              omega

theorem callRank_set_of_ne (h : params.length ≠ args.length) (arg : Option String) :
    callRank params (args.set i arg) = callRank params args := by
  simp [callRank, h]

theorem callRank_set_le (h : args[i]? = some none) (arg : Option String) :
    callRank params (args.set i arg) ≤ callRank params args + 1 := by
  by_cases hlength : params.length = args.length
  · rw [callRank_fitting (by simpa using hlength), callRank_fitting hlength]
    exact Nat.add_le_add_right (matchCount_set_le h arg) 2
  · rw [callRank_set_of_ne hlength]
    exact Nat.le_succ _

theorem callRank_set_expected (hlength : params.length = args.length) (h : args[i]? = some none)
    {param : String} (hparam : params[i]? = some param) :
    callRank params (args.set i (some (trimEndMatches (· == '&') param))) = callRank params args + 1 := by
  rw [callRank_fitting (by simpa using hlength), callRank_fitting hlength,
    matchCount_set_expected h hparam]

variable {signature : α → List String} {candidates : List α} {c : α}

theorem chooseOverload_set_expected (hc : chooseOverload signature candidates args = some c)
    (h : args[i]? = some none) {param : String} (hparam : (signature c)[i]? = some param) :
    chooseOverload signature candidates (args.set i (some (trimEndMatches (· == '&') param))) =
      some c := by
  obtain ⟨-, hbest⟩ := isBest_of_chooseOverload hc
  obtain ⟨before, behind, hsplit, hbefore, hbehind⟩ := chooseOverload_eq_some_iff.mp hc
  refine chooseOverload_eq_some_iff.mpr ⟨before, behind, hsplit, ?_⟩
  by_cases hlength : (signature c).length = args.length
  · rw [callRank_set_expected hlength h hparam]
    refine ⟨fun d hd => ?_, fun d hd => ?_⟩
    · exact Nat.lt_of_le_of_lt (callRank_set_le h _) (Nat.add_lt_add_right (hbefore d hd) 1)
    · exact Nat.le_trans (callRank_set_le h _) (Nat.add_le_add_right (hbehind d hd) 1)
  · -- nothing fits, so that the types of the arguments do not count
    have hkept : ∀ d ∈ candidates,
        callRank (signature d) (args.set i (some (trimEndMatches (· == '&') param))) =
          callRank (signature d) args := fun d hd => by
      have hlow := mt two_le_callRank_iff.mp hlength
      refine callRank_set_of_ne (fun hfit => hlow ?_) _
      exact Nat.le_trans (two_le_callRank_iff.mpr hfit) (hbest d hd)
    have hmem : ∀ d ∈ before ++ c :: behind, d ∈ candidates := fun d hd => hsplit ▸ hd
    rw [hkept c (hmem c (by simp))]
    refine ⟨fun d hd => ?_, fun d hd => ?_⟩
    · rw [hkept d (hmem d (by simp [hd]))]
      exact hbefore d hd
    · rw [hkept d (hmem d (by simp [hd]))]
      exact hbehind d hd

end Known

/-! ## What is chosen -/

/-- Between the candidates before and behind it, this is the one that a call with such arguments
means. -/
structure IsChoice (signature : α → List String) (args : List (Option String)) (before : List α) (c : α)
    (behind : List α) : Prop where
  fitting : (∃ d ∈ before ++ c :: behind, (signature d).length = args.length) →
    (signature c).length = args.length ∧
      (∀ d ∈ before, (signature d).length = args.length →
        matchCount (signature d) args < matchCount (signature c) args) ∧
      ∀ d ∈ behind, (signature d).length = args.length →
        matchCount (signature d) args ≤ matchCount (signature c) args
  longer : (∀ d ∈ before ++ c :: behind, (signature d).length ≠ args.length) →
    (∃ d ∈ before ++ c :: behind, args.length < (signature d).length) →
      args.length < (signature c).length ∧ ∀ d ∈ before, ¬ args.length < (signature d).length
  shorter : (∀ d ∈ before ++ c :: behind, (signature d).length < args.length) → before = []

section Chosen

variable {signature : α → List String} {candidates : List α} {args : List (Option String)} {c : α}

theorem isChoice_of_chooseOverload (h : chooseOverload signature candidates args = some c) :
    ∃ before behind, candidates = before ++ c :: behind ∧ IsChoice signature args before c behind := by
  obtain ⟨hmem, hbest⟩ := isBest_of_chooseOverload h
  obtain ⟨before, behind, rfl, hbefore, hbehind⟩ := chooseOverload_eq_some_iff.mp h
  refine ⟨before, behind, rfl, fun hfit => ?_, fun hnone hlonger => ?_, fun hshorter => ?_⟩
  · obtain ⟨hc, hmatches⟩ := (isBest_fitting_iff hfit).mp hbest
    refine ⟨hc, fun d hd hlength => ?_, fun d hd => hmatches d (by simp [hd])⟩
    have hrank := hbefore d hd
    rw [callRank_fitting hc, callRank_fitting hlength] at hrank
    exact Nat.lt_of_add_lt_add_right hrank
  · have hc := (isBest_longer_iff hnone hlonger hmem).mp hbest
    refine ⟨hc, fun d hd hlength => ?_⟩
    have hrank := hbefore d hd
    rw [callRank_longer hc, callRank_longer hlength] at hrank
    exact Nat.lt_irrefl _ hrank
  · refine List.eq_nil_iff_forall_not_mem.mpr fun d hd => ?_
    have hrank := hbefore d hd
    rw [callRank_shorter (hshorter c (by simp))] at hrank
    exact Nat.not_lt_zero _ hrank

/-- A candidate that fits and matches better than all others is found wherever it stands. -/
theorem chooseOverload_of_perm (hmem : c ∈ candidates) (hlength : (signature c).length = args.length)
    (hbetter : ∀ d ∈ candidates, d ≠ c → (signature d).length = args.length →
      matchCount (signature d) args < matchCount (signature c) args) {order : List α}
    (horder : order.Perm candidates) : chooseOverload signature order args = some c := by
  have hin : c ∈ order := horder.mem_iff.mpr hmem
  cases hchosen : chooseOverload signature order args with
  | none =>
      rw [chooseOverload_eq_firstBest, firstBest_eq_none_iff] at hchosen
      rw [hchosen] at hin
      exact absurd hin List.not_mem_nil
  | some d =>
      obtain ⟨hd, hbest⟩ := isBest_of_chooseOverload hchosen
      obtain ⟨hdlength, hmatches⟩ := (isBest_fitting_iff ⟨c, hin, hlength⟩).mp hbest
      by_contra hne
      have hless := hbetter d (horder.mem_iff.mp hd) (fun heq => hne (congrArg some heq)) hdlength
      exact Nat.not_le_of_lt hless (hmatches c hin hlength)

end Chosen

/-- A call means some candidate unless there is none; it is the one that its arguments choose; one that
matches better than all others that fit is chosen in every order; and the choice is kept when an unknown
argument turns out to be of the type that the chosen candidate expects. -/
theorem chooseOverload_ranked (signature : α → List String) (candidates : List α)
    (args : List (Option String)) :
    (chooseOverload signature candidates args = none ↔ candidates = []) ∧
    (∀ c, chooseOverload signature candidates args = some c →
      ∃ before behind, candidates = before ++ c :: behind ∧ IsChoice signature args before c behind) ∧
    (∀ c ∈ candidates, (signature c).length = args.length →
      (∀ d ∈ candidates, d ≠ c → (signature d).length = args.length →
        matchCount (signature d) args < matchCount (signature c) args) →
      ∀ order : List α, order.Perm candidates → chooseOverload signature order args = some c) ∧
    ∀ c i param, chooseOverload signature candidates args = some c → args[i]? = some none →
      (signature c)[i]? = some param →
        chooseOverload signature candidates (args.set i (some (trimEndMatches (· == '&') param))) =
          some c := by
  refine ⟨?_, fun c h => isChoice_of_chooseOverload h, ?_, ?_⟩
  · rw [chooseOverload_eq_firstBest, firstBest_eq_none_iff]
  · intro c hmem hlength hbetter order horder
    exact chooseOverload_of_perm hmem hlength hbetter horder
  · intro c i param hc h hparam
    exact chooseOverload_set_expected hc h hparam

/-- The parameters of three overloads. -/
def sampleOverloads : List (List String) :=
  [["Int32"], ["Object", "Char"], ["Int32&", "String"]]

/-- The overload for a text behind an unknown argument is found in every order, and again when the
unknown argument is known to be a number. -/
theorem chooseOverload_ranked_sample :
    (∀ order : List (List String), order.Perm sampleOverloads →
      chooseOverload id order [none, some "String"] = some ["Int32&", "String"]) ∧
    chooseOverload id sampleOverloads [some "Int32", some "String"] = some ["Int32&", "String"] := by
  obtain ⟨-, -, horder, hknown⟩ := chooseOverload_ranked id sampleOverloads [none, some "String"]
  have hall := horder ["Int32&", "String"] (by decide) rfl (by decide +kernel)
  have hset := hknown ["Int32&", "String"] 0 "Int32&" (hall _ (List.Perm.refl _)) rfl rfl
  have hexpected : trimEndMatches (· == '&') "Int32&" = "Int32" := by decide +kernel
  rw [hexpected] at hset
  exact ⟨hall, hset⟩

end CodeGraph.CSharp
