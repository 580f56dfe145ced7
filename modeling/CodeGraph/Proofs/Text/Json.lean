import CodeGraph.Json
import CodeGraph.Proofs.Text.Cuts
import Mathlib.Data.Bool.AllAny

namespace CodeGraph.Json

open CodeGraph.Text

/-!
# Texts of JSON values

Different values have different texts. This holds also where more text follows, if that cannot go on a
number: a text ends with its second quote, and an array or an object with the bracket that closes it.
-/

/-! ## Quoted texts -/

def hexValue (c : Char) : Nat :=
  "0123456789abcdef".toList.idxOf c

theorem hexValue_hexDigit {n : Nat} (h : n < 16) : hexValue (hexDigit n) = n := by
  have hall : ∀ n < 16, hexValue (hexDigit n) = n := by decide
  exact hall n h

def shortEscapes : List (Char × Char) :=
  [('"', '"'), ('\\', '\\'), ('n', '\n'), ('t', '\t'), ('r', '\r'), ('b', '\x08'), ('f', '\x0c')]

/-- The character that an escaped text begins with, and what follows. -/
def unescape? : Chars → Option (Char × Chars)
  | '\\' :: 'u' :: '0' :: '0' :: high :: low :: r =>
    some (.ofNat (hexValue high * 16 + hexValue low), r)
  | '\\' :: e :: r => (shortEscapes.lookup e).map (·, r)
  | c :: r => some (c, r)
  | [] => none

theorem unescape?_escapeChar (c : Char) (r : Chars) : unescape? (escapeChar c ++ r) = some (c, r) := by
  unfold escapeChar
  split_ifs with hquote hslash hfeed htab hreturn hback hform hcontrol
  · rw [hquote]; rfl
  · rw [hslash]; rfl
  · rw [hfeed]; rfl
  · rw [htab]; rfl
  · rw [hreturn]; rfl
  · rw [hback]; rfl
  · rw [hform]; rfl
  · have hhigh : hexValue (hexDigit (c.toNat / 16)) = c.toNat / 16 := hexValue_hexDigit (by omega)
    have hlow : hexValue (hexDigit (c.toNat % 16)) = c.toNat % 16 := hexValue_hexDigit (by omega)
    simp only [List.cons_append, List.nil_append, unescape?, hhigh, hlow, Nat.div_add_mod', Char.ofNat_toNat]
  · simp [unescape?, hslash]

/-- A quote is escaped, so that none stands in an escaped text at first. -/
theorem escapeChar_append_ne (c : Char) (r s : Chars) : escapeChar c ++ r ≠ '"' :: s := by
  intro heq
  have hread := congrArg unescape? heq
  rw [unescape?_escapeChar] at hread
  obtain ⟨rfl, -⟩ := Prod.mk.inj (Option.some.inj hread)
  cases heq

theorem escaped_cancel {s t r u : Chars}
    (h : s.flatMap escapeChar ++ '"' :: r = t.flatMap escapeChar ++ '"' :: u) : s = t ∧ r = u := by
  induction s generalizing t with
  | nil =>
      cases t with
      | nil => exact ⟨rfl, (List.cons.inj h).2⟩
      | cons d t =>
          rw [List.flatMap_cons, List.append_assoc] at h
          exact absurd h.symm (escapeChar_append_ne _ _ _)
  | cons c s ih =>
      cases t with
      | nil =>
          rw [List.flatMap_cons, List.append_assoc] at h
          exact absurd h (escapeChar_append_ne _ _ _)
      | cons d t =>
          rw [List.flatMap_cons, List.append_assoc, List.flatMap_cons, List.append_assoc] at h
          have hread := congrArg unescape? h
          rw [unescape?_escapeChar, unescape?_escapeChar] at hread
          obtain ⟨rfl, hrest⟩ := Prod.mk.inj (Option.some.inj hread)
          obtain ⟨rfl, hr⟩ := ih hrest
          exact ⟨rfl, hr⟩

theorem toList_quote (s : String) :
    (quote s).toList = '"' :: (s.toList.flatMap escapeChar ++ ['"']) := by
  simp [quote]

theorem quote_cancel {s t : String} {r u : Chars} (h : (quote s).toList ++ r = (quote t).toList ++ u) :
    s = t ∧ r = u := by
  rw [toList_quote, toList_quote, List.cons_append, List.cons_append, List.append_assoc,
    List.append_assoc] at h
  obtain ⟨htexts, hr⟩ := escaped_cancel (List.cons.inj h).2
  exact ⟨String.toList_injective htexts, hr⟩

/-! ## Numbers -/

/-- What may stand behind a value: nothing, or a mark that ends an element. -/
def Ends (r : Chars) : Prop :=
  ∀ c, r.head? = some c → c ∈ [',', ']', '\x7d']

theorem ends_cons {c : Char} (h : c ∈ [',', ']', '\x7d']) (r : Chars) : Ends (c :: r) := by
  intro d hd
  obtain rfl := Option.some.inj hd
  exact h

theorem Ends.ne {r u : Chars} (h : Ends r) {c : Char} (hc : c ∉ [',', ']', '\x7d']) : r ≠ c :: u := by
  rintro rfl
  exact hc (h c rfl)

theorem Ends.takeWhile_digits {r : Chars} (h : Ends r) (n : Nat) :
    (Nat.toDigits 10 n ++ r).takeWhile Char.isDigit = Nat.toDigits 10 n := by
  have hnone : r.takeWhile Char.isDigit = [] := by
    cases r with
    | nil => rfl
    | cons c r =>
        have hc := h c rfl
        have hall : ∀ c ∈ [',', ']', '\x7d'], Char.isDigit c = false :=
          List.all_iff_forall_prop.mp (by decide)
        rw [List.takeWhile_cons, hall c hc]
        rfl
  rw [List.takeWhile_append_of_pos fun c hc => Nat.isDigit_of_mem_toDigits (by decide) (by decide) hc,
    hnone, List.append_nil]

theorem digits_cancel {m n : Nat} {r u : Chars} (hr : Ends r) (hu : Ends u)
    (h : Nat.toDigits 10 m ++ r = Nat.toDigits 10 n ++ u) : m = n ∧ r = u := by
  have hdigits := congrArg (List.takeWhile Char.isDigit) h
  rw [hr.takeWhile_digits, hu.takeWhile_digits] at hdigits
  refine ⟨?_, List.append_cancel_left (hdigits ▸ h)⟩
  rw [← Nat.ofDigitChars_ten_toDigits (n := m), hdigits, Nat.ofDigitChars_ten_toDigits]

theorem toList_ofNat (n : Nat) : (toString (Int.ofNat n)).toList = Nat.toDigits 10 n := by
  change (Nat.repr n).toList = _
  rw [Nat.repr_eq_ofList_toDigits, String.toList_ofList]

theorem toList_negSucc (n : Nat) : (toString (Int.negSucc n)).toList = '-' :: Nat.toDigits 10 (n + 1) := by
  change ("-" ++ Nat.repr (n + 1)).toList = _
  simp [Nat.repr_eq_ofList_toDigits]

theorem exists_first_digit (n : Nat) :
    ∃ d digits, Nat.toDigits 10 n = d :: digits ∧ d.isDigit = true := by
  obtain ⟨d, digits, hdigits⟩ := List.exists_cons_of_ne_nil (Nat.toDigits_ne_nil (b := 10) (n := n))
  exact ⟨d, digits, hdigits, Nat.isDigit_of_mem_toDigits (b := 10) (n := n) (by decide) (by decide)
    (hdigits ▸ List.mem_cons_self)⟩

theorem digits_append_ne {n : Nat} {c : Char} (hc : c.isDigit = false) (r u : Chars) :
    Nat.toDigits 10 n ++ r ≠ c :: u := by
  intro h
  obtain ⟨d, digits, hdigits, hd⟩ := exists_first_digit n
  rw [hdigits] at h
  obtain rfl : d = c := (List.cons.inj h).1
  rw [hc] at hd
  cases hd

theorem int_cancel {i j : Int} {r u : Chars} (hr : Ends r) (hu : Ends u)
    (h : (toString i).toList ++ r = (toString j).toList ++ u) : i = j ∧ r = u := by
  cases i with
  | ofNat m =>
      cases j with
      | ofNat n =>
          rw [toList_ofNat, toList_ofNat] at h
          obtain ⟨rfl, hrest⟩ := digits_cancel hr hu h
          exact ⟨rfl, hrest⟩
      | negSucc n =>
          rw [toList_ofNat, toList_negSucc] at h
          exact absurd h (digits_append_ne (by decide) _ _)
  | negSucc m =>
      cases j with
      | ofNat n =>
          rw [toList_ofNat, toList_negSucc] at h
          exact absurd h.symm (digits_append_ne (by decide) _ _)
      | negSucc n =>
          rw [toList_negSucc, toList_negSucc] at h
          obtain ⟨hmn, hrest⟩ := digits_cancel hr hu (List.cons.inj h).2
          obtain rfl : m = n := Nat.succ.inj hmn
          exact ⟨rfl, hrest⟩

/-- Of a whole number no text goes on with a point. -/
theorem int_append_ne_fraction {i : Int} {r : Chars} (hr : Ends r) (u : Chars) :
    (toString i).toList ++ r ≠ "0.0".toList ++ u := by
  intro h
  cases i with
  | ofNat n =>
      have hzero : Nat.toDigits 10 0 = ['0'] := rfl
      have hdigits := congrArg (List.takeWhile Char.isDigit) h
      have hfront : ("0.0".toList ++ u).takeWhile Char.isDigit = ['0'] := rfl
      rw [toList_ofNat, hr.takeWhile_digits, hfront] at hdigits
      rw [toList_ofNat, hdigits] at h
      exact hr.ne (by decide) (List.cons.inj h).2
  | negSucc n =>
      rw [toList_negSucc] at h
      cases h

/-! ## Elements -/

section Elements

variable {α : Type} {text : α → String} {close : Char}

/-- What stands behind an element: a comma and the others, or the bracket. -/
def behindElement (close : Char) (more : List String) (r : Chars) : Chars :=
  if more = [] then close :: r else ',' :: ((joinWith "," more).toList ++ close :: r)

theorem toList_joinWith_cons (first : String) (more : List String) (r : Chars) :
    (joinWith "," (first :: more)).toList ++ close :: r =
      first.toList ++ behindElement close more r := by
  rw [Chars.toList_joinWith, behindElement]
  cases more with
  | nil => rfl
  | cons second more =>
      rw [if_neg (List.cons_ne_nil _ _), Chars.toList_joinWith]
      simp [Chars.joinWith]

/-- Elements are told apart one by one, if no element begins with the bracket that closes them. -/
theorem elements_cancel (hclose : close ∈ [']', '\x7d']) {l m : List α}
    (hcancel : ∀ a ∈ l, ∀ b r u, Ends r → Ends u → (text a).toList ++ r = (text b).toList ++ u →
      a = b ∧ r = u)
    (hfirst : ∀ a r u, (text a).toList ++ r ≠ close :: u) {r u : Chars}
    (h : (joinWith "," (l.map text)).toList ++ close :: r =
      (joinWith "," (m.map text)).toList ++ close :: u) : l = m ∧ r = u := by
  have hends : ∀ more r, Ends (behindElement close more r) := by
    intro more r
    rw [behindElement]
    split
    · exact ends_cons (List.mem_cons_of_mem _ hclose) r
    · exact ends_cons List.mem_cons_self _
  have hcomma : close ≠ ',' := by
    rintro rfl
    exact absurd hclose (by decide)
  induction l generalizing m with
  | nil =>
      cases m with
      | nil => exact ⟨rfl, (List.cons.inj h).2⟩
      | cons b m =>
          rw [List.map_cons, toList_joinWith_cons] at h
          exact absurd h.symm (hfirst _ _ _)
  | cons a l ih =>
      cases m with
      | nil =>
          rw [List.map_cons, toList_joinWith_cons] at h
          exact absurd h (hfirst _ _ _)
      | cons b m =>
          obtain ⟨ha, hl⟩ := List.forall_mem_cons.mp hcancel
          rw [List.map_cons, toList_joinWith_cons, List.map_cons, toList_joinWith_cons] at h
          obtain ⟨rfl, hmore⟩ := ha b _ _ (hends _ _) (hends _ _) h
          unfold behindElement at hmore
          split_ifs at hmore with hlast hlast' hlast'
          · rw [List.map_eq_nil_iff] at hlast hlast'
            exact ⟨by rw [hlast, hlast'], (List.cons.inj hmore).2⟩
          · exact absurd (List.cons.inj hmore).1 hcomma
          · exact absurd (List.cons.inj hmore).1.symm hcomma
          · obtain ⟨rfl, hr⟩ := ih hl (List.cons.inj hmore).2
            exact ⟨rfl, hr⟩

end Elements

/-! ## Values -/

/-- The kinds of values, as their first characters tell them. -/
inductive Form where
  | null
  | bool (value : Bool)
  | number
  | text
  | list
  | record

def form : Json → Form
  | null => .null
  | bool b => .bool b
  | int _ => .number
  | fraction => .number
  | str _ => .text
  | arr _ => .list
  | obj _ => .record

def Form.ofFirst (c : Char) : Form :=
  if c = 'n' then .null
  else if c = 't' then .bool true
  else if c = 'f' then .bool false
  else if c = '"' then .text
  else if c = '[' then .list
  else if c = '\x7b' then .record
  else .number

theorem Form.ofFirst_digit {c : Char} (h : c.isDigit = true) : Form.ofFirst c = .number := by
  have hall : ∀ d ∈ ['n', 't', 'f', '"', '[', '\x7b'], d.isDigit = false :=
    List.all_iff_forall_prop.mp (by decide)
  have hne : ∀ d ∈ ['n', 't', 'f', '"', '[', '\x7b'], c ≠ d := by
    rintro d hd rfl
    rw [hall c hd] at h
    cases h
  simp only [List.forall_mem_cons] at hne
  simp [ofFirst, hne]

theorem compactAll_eq (l : List Json) : compactAll l = l.map compact := by
  induction l with
  | nil => rw [compactAll, List.map_nil]
  | cons v l ih => rw [compactAll, ih, List.map_cons]

def compactField (e : String × Json) : String :=
  quote e.1 ++ ":" ++ e.2.compact

theorem compactFields_eq (l : List (String × Json)) : compactFields l = l.map compactField := by
  induction l with
  | nil => rw [compactFields, List.map_nil]
  | cons e l ih => rw [compactFields, ih, List.map_cons, compactField]

theorem toList_arr (l : List Json) (r : Chars) :
    (arr l).compact.toList ++ r = '[' :: ((joinWith "," (l.map compact)).toList ++ ']' :: r) := by
  simp [compact, compactAll_eq]

theorem toList_obj (l : List (String × Json)) (r : Chars) :
    (obj l).compact.toList ++ r = '\x7b' :: ((joinWith "," (l.map compactField)).toList ++ '\x7d' :: r) := by
  simp [compact, compactFields_eq]

theorem exists_first (v : Json) :
    ∃ c r, v.compact.toList = c :: r ∧ Form.ofFirst c = v.form ∧ c ≠ ']' := by
  cases v with
  | null => exact ⟨_, _, rfl, rfl, by decide⟩
  | bool b => cases b <;> exact ⟨_, _, rfl, rfl, by decide⟩
  | int i =>
      rw [compact, form]
      cases i with
      | ofNat n =>
          obtain ⟨d, digits, hdigits, hd⟩ := exists_first_digit n
          refine ⟨d, digits, by rw [toList_ofNat, hdigits], Form.ofFirst_digit hd, ?_⟩
          rintro rfl
          cases hd
      | negSucc n => exact ⟨'-', _, toList_negSucc n, rfl, by decide⟩
  | fraction => exact ⟨_, _, rfl, rfl, by decide⟩
  | str s => exact ⟨'"', _, by rw [compact, toList_quote], rfl, by decide⟩
  | arr l => exact ⟨'[', _, by rw [← List.append_nil (compact _).toList, toList_arr], rfl, by decide⟩
  | obj l => exact ⟨'\x7b', _, by rw [← List.append_nil (compact _).toList, toList_obj], rfl, by decide⟩

theorem form_eq {v w : Json} {r u : Chars} (h : v.compact.toList ++ r = w.compact.toList ++ u) :
    v.form = w.form := by
  obtain ⟨c, more, hc, hv, -⟩ := exists_first v
  obtain ⟨d, more', hd, hw, -⟩ := exists_first w
  rw [hc, hd] at h
  obtain rfl : c = d := (List.cons.inj h).1
  rw [← hv, hw]

theorem compact_append_ne (v : Json) (r u : Chars) : v.compact.toList ++ r ≠ ']' :: u := by
  intro h
  obtain ⟨c, more, hc, -, hne⟩ := exists_first v
  rw [hc] at h
  exact hne (List.cons.inj h).1

theorem toList_compactField (e : String × Json) (r : Chars) :
    (compactField e).toList ++ r = (quote e.1).toList ++ ':' :: (e.2.compact.toList ++ r) := by
  simp [compactField]

theorem compactField_append_ne (e : String × Json) (r u : Chars) :
    (compactField e).toList ++ r ≠ '\x7d' :: u := by
  rw [toList_compactField, toList_quote]
  intro h
  cases h

/-- The text of the value is told apart from those of all others, whatever follows. -/
def Cancels (v : Json) : Prop :=
  ∀ w r u, Ends r → Ends u → v.compact.toList ++ r = w.compact.toList ++ u → v = w ∧ r = u

theorem Cancels.field {v : Json} (hv : v.Cancels) (k : String) (e : String × Json) (r u : Chars)
    (hr : Ends r) (hu : Ends u) (h : (compactField (k, v)).toList ++ r = (compactField e).toList ++ u) :
    (k, v) = e ∧ r = u := by
  rw [toList_compactField, toList_compactField] at h
  obtain ⟨hkey, hvalue⟩ := quote_cancel h
  obtain ⟨hvalue, hrest⟩ := hv e.2 r u hr hu (List.cons.inj hvalue).2
  exact ⟨Prod.ext hkey hvalue, hrest⟩

mutual

theorem cancels (v : Json) : v.Cancels := by
  intro w r u hr hu h
  have hform := form_eq h
  cases v with
  | null =>
      obtain rfl : w = null := by
        cases w <;> cases hform
        rfl
      exact ⟨rfl, List.append_cancel_left h⟩
  | bool b =>
      obtain rfl : w = bool b := by
        cases w <;> cases hform
        rfl
      exact ⟨rfl, List.append_cancel_left h⟩
  | int i =>
      rw [compact] at h
      cases w with
      | int j =>
          rw [compact] at h
          obtain ⟨rfl, hrest⟩ := int_cancel hr hu h
          exact ⟨rfl, hrest⟩
      | fraction => exact absurd h (int_append_ne_fraction hr u)
      | _ => cases hform
  | fraction =>
      cases w with
      | int j =>
          rw [compact.eq_4] at h
          exact absurd h.symm (int_append_ne_fraction hu r)
      | fraction => exact ⟨rfl, List.append_cancel_left h⟩
      | _ => cases hform
  | str s =>
      obtain ⟨t, rfl⟩ : ∃ t, w = str t := by
        cases w <;> cases hform
        exact ⟨_, rfl⟩
      rw [compact, compact] at h
      obtain ⟨rfl, hrest⟩ := quote_cancel h
      exact ⟨rfl, hrest⟩
  | arr l =>
      obtain ⟨m, rfl⟩ : ∃ m, w = arr m := by
        cases w <;> cases hform
        exact ⟨_, rfl⟩
      rw [toList_arr, toList_arr] at h
      obtain ⟨rfl, hrest⟩ :=
        elements_cancel (by decide) (cancelsAll l) compact_append_ne (List.cons.inj h).2
      exact ⟨rfl, hrest⟩
  | obj l =>
      obtain ⟨m, rfl⟩ : ∃ m, w = obj m := by
        cases w <;> cases hform
        exact ⟨_, rfl⟩
      rw [toList_obj, toList_obj] at h
      obtain ⟨rfl, hrest⟩ := elements_cancel (by decide)
        (fun e he => (cancelsFields l e he).field e.1) compactField_append_ne (List.cons.inj h).2
      exact ⟨rfl, hrest⟩

theorem cancelsAll (l : List Json) : ∀ v ∈ l, v.Cancels := by
  cases l with
  | nil => exact List.forall_mem_nil _
  | cons v l => exact List.forall_mem_cons.mpr ⟨cancels v, cancelsAll l⟩

theorem cancelsFields (l : List (String × Json)) : ∀ e ∈ l, e.2.Cancels := by
  cases l with
  | nil => exact List.forall_mem_nil _
  | cons e l =>
      obtain ⟨k, v⟩ := e
      exact List.forall_mem_cons.mpr ⟨cancels v, cancelsFields l⟩

end

theorem compact_injective : Function.Injective compact := by
  intro v w h
  have hnil : Ends [] := fun c hc => by cases hc
  exact (cancels v w [] [] hnil hnil (by rw [h])).1

end CodeGraph.Json
