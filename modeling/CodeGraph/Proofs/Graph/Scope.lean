import CodeGraph.Graph.Dedup
import Mathlib.Data.List.Basic

namespace CodeGraph

/-!
# The links of one scope

The mentions of a scope ask for links, some of them more than once. A dedup lets the first link of
each key pass and holds the others back. The kind of a link is not part of its key, so the kind that
goes out is that of the first mention.
-/

def Link.key (l : Link) : String × NodeKind :=
  (l.target, l.targetKind)

/-- The links `sent` are those of a scope whose mentions ask for the links `asked`, in this order. -/
structure IsScope (source : String) (asked sent : List Link) : Prop where
  source_eq : ∀ l ∈ sent, l.source = source
  keys_nodup : (sent.map Link.key).Nodup
  target_ne : ∀ l ∈ sent, l.target ≠ source
  first : ∀ l ∈ sent, ∃ before after, asked = before ++ l :: after ∧ ∀ e ∈ before, e.key ≠ l.key
  complete : ∀ l ∈ asked, ∃ e ∈ sent, e.key = l.key

namespace LinkDedup

def after (d : LinkDedup) (asked : List Link) : LinkDedup :=
  asked.foldl (fun d l => (d.link l.target l.targetKind l.kind).2) d

def passed (d : LinkDedup) : List Link → List Link
  | [] => []
  | l :: more =>
    (d.link l.target l.targetKind l.kind).1.toList ++ (d.link l.target l.targetKind l.kind).2.passed more

theorem link_of_mem {d : LinkDedup} {l : Link} (h : l.key ∈ d.seen) :
    d.link l.target l.targetKind l.kind = (none, d) := by
  have h' : (l.target, l.targetKind) ∈ d.seen := h
  simp [link, h']

theorem link_of_notMem {d : LinkDedup} {l : Link} (h : l.key ∉ d.seen) :
    d.link l.target l.targetKind l.kind =
      (some { l with source := d.source }, { d with seen := l.key :: d.seen }) := by
  have h' : (l.target, l.targetKind) ∉ d.seen := h
  simp [link, h', Link.key]

@[simp] theorem after_nil (d : LinkDedup) : d.after [] = d := rfl

theorem after_append (d : LinkDedup) (a b : List Link) :
    d.after (a ++ b) = (d.after a).after b := by
  simp [after]

@[simp] theorem passed_nil (d : LinkDedup) : d.passed [] = [] := rfl

theorem passed_append (d : LinkDedup) (a b : List Link) :
    d.passed (a ++ b) = d.passed a ++ (d.after a).passed b := by
  induction a generalizing d with
  | nil => rfl
  | cons l a ih =>
      simp only [List.cons_append, passed, ih, after, List.foldl_cons, List.append_assoc]

theorem source_link (d : LinkDedup) (target : String) (targetKind : NodeKind) (kind : LinkKind) :
    (d.link target targetKind kind).2.source = d.source := by
  unfold link
  split <;> rfl

@[simp] theorem source_after (d : LinkDedup) (asked : List Link) :
    (d.after asked).source = d.source := by
  induction asked generalizing d with
  | nil => rfl
  | cons l asked ih =>
      have h := ih (d.link l.target l.targetKind l.kind).2
      rwa [source_link] at h

theorem source_of_mem_passed {d : LinkDedup} {asked : List Link} {l : Link}
    (h : l ∈ d.passed asked) :
    l.source = d.source := by
  induction asked generalizing d with
  | nil => simp at h
  | cons e asked ih =>
      by_cases he : e.key ∈ d.seen
      · simp only [passed, link_of_mem he, Option.toList_none, List.nil_append] at h
        exact ih h
      · simp only [passed, link_of_notMem he, Option.toList_some, List.singleton_append] at h
        rcases List.mem_cons.mp h with rfl | h
        · rfl
        · exact ih (d := { d with seen := e.key :: d.seen }) h

/-- A link passes at the first place where its key is asked for, and only if the key is new. -/
theorem first_of_mem_passed {d : LinkDedup} {asked : List Link} {l : Link}
    (hsource : ∀ e ∈ asked, e.source = d.source) (h : l ∈ d.passed asked) :
    l.key ∉ d.seen ∧
      ∃ before after, asked = before ++ l :: after ∧ ∀ e ∈ before, e.key ≠ l.key := by
  induction asked generalizing d with
  | nil => simp at h
  | cons e asked ih =>
      have hsource' : ∀ e ∈ asked, e.source = d.source :=
          fun x hx => hsource x (List.mem_cons_of_mem e hx)
      by_cases he : e.key ∈ d.seen
      · simp only [passed, link_of_mem he, Option.toList_none, List.nil_append] at h
        obtain ⟨hnew, before, after, rfl, hbefore⟩ := ih hsource' h
        refine ⟨hnew, e :: before, after, rfl, ?_⟩
        intro x hx
        rcases List.mem_cons.mp hx with rfl | hx
        · exact fun heq => hnew (heq ▸ he)
        · exact hbefore x hx
      · simp only [passed, link_of_notMem he, Option.toList_some, List.singleton_append] at h
        rcases List.mem_cons.mp h with rfl | h
        · have hself : { e with source := d.source } = e := by rw [← hsource e List.mem_cons_self]
          rw [hself]
          exact ⟨he, [], asked, rfl, by simp⟩
        · obtain ⟨hnew, before, after, rfl, hbefore⟩ :=
            ih (d := { d with seen := e.key :: d.seen }) hsource' h
          obtain ⟨hne, hnew⟩ := not_or.mp (fun hor => hnew (List.mem_cons.mpr hor))
          refine ⟨hnew, e :: before, after, rfl, ?_⟩
          intro x hx
          rcases List.mem_cons.mp hx with rfl | hx
          · exact fun heq => hne heq.symm
          · exact hbefore x hx

theorem keys_nodup_passed (d : LinkDedup) {asked : List Link}
    (hsource : ∀ e ∈ asked, e.source = d.source) :
    ((d.passed asked).map Link.key).Nodup := by
  induction asked generalizing d with
  | nil => simp
  | cons e asked ih =>
      have hsource' : ∀ e ∈ asked, e.source = d.source :=
          fun x hx => hsource x (List.mem_cons_of_mem e hx)
      by_cases he : e.key ∈ d.seen
      · simpa only [passed, link_of_mem he, Option.toList_none, List.nil_append] using ih d hsource'
      · simp only [passed, link_of_notMem he, Option.toList_some, List.singleton_append,
          List.map_cons,
          List.nodup_cons]
        refine ⟨?_, ih _ hsource'⟩
        intro hmem
        obtain ⟨l, hl, hkey⟩ := List.mem_map.mp hmem
        have hnew := (first_of_mem_passed (d := { d with seen := e.key :: d.seen }) hsource' hl).1
        exact hnew (List.mem_cons.mpr (Or.inl hkey))

theorem exists_passed_of_asked (d : LinkDedup) {asked : List Link} {l : Link} (h : l ∈ asked) :
    l.key ∈ d.seen ∨ ∃ e ∈ d.passed asked, e.key = l.key := by
  induction asked generalizing d with
  | nil => simp at h
  | cons e asked ih =>
      by_cases he : e.key ∈ d.seen
      · simp only [passed, link_of_mem he, Option.toList_none, List.nil_append]
        rcases List.mem_cons.mp h with rfl | h
        · exact Or.inl he
        · exact ih d h
      · simp only [passed, link_of_notMem he, Option.toList_some, List.singleton_append]
        have hhead : (⟨d.source, e.target, e.targetKind, e.kind⟩ : Link).key = e.key := rfl
        rcases List.mem_cons.mp h with rfl | h
        · exact Or.inr ⟨_, List.mem_cons_self, hhead⟩
        · rcases ih { d with seen := e.key :: d.seen } h with hseen | ⟨x, hx, hkey⟩
          · rcases List.mem_cons.mp hseen with heq | hseen
            · exact Or.inr ⟨_, List.mem_cons_self, hhead.trans heq.symm⟩
            · exact Or.inl hseen
          · exact Or.inr ⟨x, List.mem_cons_of_mem _ hx, hkey⟩

/-- What a fresh dedup lets pass is a scope, when no link asked for leads back to its source. -/
theorem isScope_passed_new {source : String} {asked : List Link}
    (h : ∀ l ∈ asked, l.source = source ∧ l.target ≠ source) :
    IsScope source asked ((new source).passed asked) := by
  have hsource : ∀ l ∈ asked, l.source = (new source).source := fun l hl => (h l hl).1
  refine ⟨fun l hl => source_of_mem_passed hl, keys_nodup_passed _ hsource, ?_, ?_, ?_⟩
  · intro l hl
    obtain ⟨-, before, after, rfl, -⟩ := first_of_mem_passed hsource hl
    exact (h l (by simp)).2
  · exact fun l hl => (first_of_mem_passed hsource hl).2
  · intro l hl
    rcases exists_passed_of_asked (new source) hl with hseen | hpassed
    · simp [new] at hseen
    · exact hpassed

end LinkDedup

end CodeGraph
