import CodeGraph.Proofs.Files.PathComponents

namespace CodeGraph.Path

/-!
# Normalized paths

Resolving the dots of a path is a run over its components, with the components that are left as a stack.
From the first step on, the stack has names only, on top of the root or of one `..` that found nothing to
take back. Such a stack is put together to a path that shows it again, so that normalizing twice changes
nothing.
-/

/-- The components that are left of a path when its dots are resolved, the last first. -/
def resolve (path : String) : List Component :=
  (components path).foldl step []

theorem normalize_eq (path : String) : normalize path = ofComponents (resolve path).reverse :=
  rfl

/-- A leading dot is no step. -/
theorem foldl_step_of_relative {path : String} (h : isAbsolute path = false) (done : List Component) :
    (components path).foldl step done = (body path).foldl step done := by
  rcases components_of_relative h with heq | heq <;> rw [heq]
  rfl

/-- A joined path is walked by walking the second path from where the first has led. -/
theorem foldl_step_join {child : String} (h : isAbsolute child = false) (base : String)
    (done : List Component) :
    (components (join base child)).foldl step done =
      (components child).foldl step ((components base).foldl step done) := by
  by_cases hbase : base = ""
  · rw [hbase, join_empty]
    rfl
  · rw [components_join hbase h, List.foldl_append, foldl_step_of_relative h]

theorem resolve_join {base path : String} (hpath : isAbsolute path = false) :
    resolve (join base path) = (components path).foldl step (resolve base) :=
  foldl_step_join hpath base []

/-! ## Stacks -/

/-- What can be left: names, on top of the root, of one `..`, of both or of nothing. -/
inductive Settled : Bool → List Component → Prop
  | nil : Settled false []
  | up : Settled false [.up]
  | root : Settled true [.root]
  | rootUp : Settled true [.up, .root]
  | name {absolute : Bool} {n : String} {done : List Component} (hname : IsPlain (.name n))
      (h : Settled absolute done) : Settled absolute (.name n :: done)

namespace Settled

variable {absolute : Bool} {done : List Component}

theorem step (h : Settled absolute done) {c : Component} (hc : IsPlain c) :
    Settled absolute (Path.step done c) := by
  obtain rfl | ⟨n, rfl⟩ := hc.eq_up_or_name
  · cases h with
    | nil => exact .up
    | up => exact .nil
    | root => exact .rootUp
    | rootUp => exact .root
    | name _ h => exact h
  · exact .name hc h

theorem foldl (h : Settled absolute done) {cs : List Component} (hcs : ∀ c ∈ cs, IsPlain c) :
    Settled absolute (cs.foldl Path.step done) := by
  induction cs generalizing done with
  | nil => exact h
  | cons c cs ih =>
      obtain ⟨hc, hmore⟩ := List.forall_mem_cons.mp hcs
      exact ih (h.step hc) hmore

theorem root_mem_iff (h : Settled absolute done) : .root ∈ done ↔ absolute = true := by
  induction h with
  | nil | up | root | rootUp => simp
  | name _ _ ih => simpa using ih

/-- Run again, a settled stack comes out as it is. -/
theorem foldl_reverse (h : Settled absolute done) : done.reverse.foldl Path.step [] = done := by
  induction h with
  | nil | up | root | rootUp => rfl
  | name _ _ ih =>
      rw [List.reverse_cons, List.foldl_concat, ih]
      rfl

end Settled

theorem settled_resolve (path : String) : Settled (isAbsolute path) (resolve path) := by
  have hbody : ∀ c ∈ body path, IsPlain c := fun c => isPlain_of_mem_body
  rw [resolve]
  cases habsolute : isAbsolute path with
  | true =>
      rw [components_of_isAbsolute habsolute]
      exact Settled.root.foldl hbody
  | false =>
      rw [foldl_step_of_relative habsolute]
      exact Settled.nil.foldl hbody

/-! ## Putting a stack together -/

theorem components_join_text {c : Component} (hc : IsPlain c) (base : String) :
    components (join base c.text) = components base ++ [c] := by
  by_cases hbase : base = ""
  · rw [hbase, join_empty, hc.components_text]
    rfl
  · rw [components_join hbase hc.relative, hc.body_text]

theorem ofComponents_concat (cs : List Component) (c : Component) :
    ofComponents (cs ++ [c]) = join (ofComponents cs) c.text :=
  List.foldl_concat _ _ _ _

theorem Settled.components_ofComponents {absolute : Bool} {done : List Component}
    (h : Settled absolute done) : components (ofComponents done.reverse) = done.reverse := by
  induction h with
  | nil | up | root | rootUp => decide +kernel
  | name hname _ ih => rw [List.reverse_cons, ofComponents_concat, components_join_text hname, ih]

theorem components_normalize (path : String) : components (normalize path) = (resolve path).reverse :=
  (settled_resolve path).components_ofComponents

theorem resolve_normalize (path : String) : resolve (normalize path) = resolve path := by
  rw [resolve, components_normalize]
  exact (settled_resolve path).foldl_reverse

theorem normalize_normalize (path : String) : normalize (normalize path) = normalize path := by
  rw [normalize_eq, resolve_normalize, ← normalize_eq]

theorem normalize_eq_iff {a b : String} : normalize a = normalize b ↔ resolve a = resolve b := by
  constructor
  · intro h
    rw [← resolve_normalize a, h, resolve_normalize]
  · intro h
    rw [normalize_eq, h, ← normalize_eq]

/-- Normalizing keeps whether a path is absolute. -/
theorem isAbsolute_normalize (path : String) : isAbsolute (normalize path) = isAbsolute path := by
  rw [Bool.eq_iff_iff, isAbsolute_iff, components_normalize, List.mem_reverse]
  exact (settled_resolve path).root_mem_iff

/-! ## Ways

A relative path leads out of a directory by some levels and from there down by some names.
-/

structure Way where
  /-- Levels above the directory. -/
  out : Nat
  /-- Names below them, the innermost first. -/
  below : List String
  deriving DecidableEq, Repr

namespace Way

def next (w : Way) : Component → Way
  | .root | .here => w
  | .up =>
    match w.below with
    | [] => { w with out := w.out + 1 }
    | _ :: above => { w with below := above }
  | .name n => { w with below := n :: w.below }

def along (w : Way) (cs : List Component) : Way :=
  cs.foldl next w

/-- The names of the way on top of what is left so many levels out. -/
def on (w : Way) (left : Nat → List Component) : List Component :=
  w.below.map .name ++ left w.out

theorem out_le_out_next (w : Way) (c : Component) : w.out ≤ (w.next c).out := by
  unfold next
  split
  · exact Nat.le_refl _
  · exact Nat.le_refl _
  · split <;> simp
  · exact Nat.le_refl _

theorem out_le_out_along (w : Way) (cs : List Component) : w.out ≤ (w.along cs).out := by
  induction cs generalizing w with
  | nil => exact Nat.le_refl _
  | cons c cs ih => exact (w.out_le_out_next c).trans (ih (w.next c))

/-- Only `..` leads out. -/
theorem out_along_le (w : Way) (cs : List Component) : (w.along cs).out ≤ w.out + cs.count .up := by
  induction cs generalizing w with
  | nil => exact Nat.le_refl _
  | cons c cs ih =>
      have hnext : (w.next c).out + cs.count .up ≤ w.out + (c :: cs).count .up := by
        unfold next
        split
        · simp
        · simp
        · split
          · simp only [List.count_cons_self]
            omega
          · simp only [List.count_cons_self]
            omega
        · simp
      exact (ih (w.next c)).trans hnext

variable {left : Nat → List Component}

theorem step_on {w : Way} {c : Component} (hc : c ≠ .root)
    (h : w.out < (w.next c).out → step (left w.out) .up = left (w.out + 1)) :
    step (w.on left) c = (w.next c).on left := by
  obtain ⟨out, below⟩ := w
  cases c with
  | root => exact absurd rfl hc
  | here => rfl
  | up =>
      cases below with
      | nil => exact h (Nat.lt_succ_self out)
      | cons n below => rfl
  | name n => rfl

/-- Resolving a path walks its way, on any stack in which `..` leads one level further out. -/
theorem foldl_step_on {w : Way} {cs : List Component} (hcs : .root ∉ cs)
    (h : ∀ k < (w.along cs).out, step (left k) .up = left (k + 1)) :
    cs.foldl step (w.on left) = (w.along cs).on left := by
  induction cs generalizing w with
  | nil => rfl
  | cons c cs ih =>
      simp only [List.mem_cons, not_or] at hcs
      have hstep : step (w.on left) c = (w.next c).on left := by
        refine step_on (Ne.symm hcs.1) fun hlt => h w.out ?_
        exact hlt.trans_le (out_le_out_along (w.next c) cs)
      rw [List.foldl_cons, hstep, ih hcs.2 h]
      rfl

theorem along_names (w : Way) (ns : List String) :
    w.along (ns.map .name) = { w with below := ns.reverse ++ w.below } := by
  induction ns generalizing w with
  | nil => rfl
  | cons n ns ih =>
      rw [List.map_cons, along, List.foldl_cons, ← along, ih, List.reverse_cons, List.append_assoc]
      rfl

end Way

/-- The way that a relative path leads. -/
def wayOf (path : String) : Way :=
  (⟨0, []⟩ : Way).along (components path)

theorem out_wayOf_le (path : String) : (wayOf path).out ≤ (components path).count .up :=
  (Way.out_along_le ⟨0, []⟩ (components path)).trans_eq (Nat.zero_add _)

/-- A relative path alone: every second `..` takes back the one before. -/
def ups (k : Nat) : List Component :=
  if k % 2 = 1 then [.up] else []

theorem step_ups (k : Nat) : step (ups k) .up = ups (k + 1) := by
  obtain h | h := Nat.mod_two_eq_zero_or_one k
  · rw [ups, ups, if_neg (by omega), if_pos (by omega)]
    rfl
  · rw [ups, ups, if_pos h, if_neg (by omega)]
    rfl

theorem resolve_of_relative {path : String} (h : isAbsolute path = false) :
    resolve path = (wayOf path).on ups :=
  Way.foldl_step_on (w := ⟨0, []⟩) (root_notMem_of_relative h) fun k _ => step_ups k

/-- Of the levels that a path leads out, normalizing keeps one or none. -/
theorem wayOf_normalize {path : String} (h : isAbsolute path = false) :
    wayOf (normalize path) = { wayOf path with out := (wayOf path).out % 2 } := by
  have hups : (⟨0, []⟩ : Way).along (ups (wayOf path).out).reverse = ⟨(wayOf path).out % 2, []⟩ := by
    obtain hout | hout := Nat.mod_two_eq_zero_or_one (wayOf path).out <;> rw [ups, hout] <;> rfl
  rw [wayOf, components_normalize, resolve_of_relative h, Way.on, List.reverse_append, Way.along,
    List.foldl_append, ← Way.along, ← Way.along, hups, ← List.map_reverse, Way.along_names,
    List.reverse_reverse, List.append_nil]

/-! ## Below a directory -/

/-- The base is an absolute path without `..`, and deep enough for every `..` of the relative path. -/
structure IsBaseOf (base path : String) : Prop where
  absolute : isAbsolute base = true
  straight : .up ∉ components base
  relative : isAbsolute path = false
  deep : (components path).count .up < (components base).length

theorem exists_names {cs : List Component} (hcs : ∀ c ∈ cs, IsPlain c) (hup : .up ∉ cs) :
    ∃ ns : List String, cs = ns.map .name := by
  induction cs with
  | nil => exact ⟨[], rfl⟩
  | cons c cs ih =>
      obtain ⟨hc, hmore⟩ := List.forall_mem_cons.mp hcs
      simp only [List.mem_cons, not_or] at hup
      obtain ⟨ns, rfl⟩ := ih hmore hup.2
      obtain rfl | ⟨n, rfl⟩ := hc.eq_up_or_name
      · exact absurd rfl hup.1
      · exact ⟨n :: ns, rfl⟩

/-- What is left of a directory so many levels out. -/
def above (names : List String) (k : Nat) : List Component :=
  (names.drop k).map .name ++ [.root]

theorem step_above {names : List String} {k : Nat} (h : k < names.length) :
    step (above names k) .up = above names (k + 1) := by
  rw [above, List.drop_eq_getElem_cons h]
  rfl

theorem above_injective {names : List String} {j k : Nat} (hj : j ≤ names.length) (hk : k ≤ names.length)
    (h : above names j = above names k) : j = k := by
  have hlength := congrArg List.length h
  simp only [above, List.length_append, List.length_map, List.length_drop] at hlength
  omega

theorem foldl_step_names (ns : List String) (done : List Component) :
    (ns.map Component.name).foldl step done = ns.reverse.map .name ++ done := by
  induction ns generalizing done with
  | nil => rfl
  | cons n ns ih =>
      rw [List.map_cons, List.foldl_cons, ih, List.reverse_cons, List.map_append, List.append_assoc]
      rfl

/-- An absolute path without `..` is resolved to all its names. -/
theorem exists_resolve_eq_above {base : String} (habsolute : isAbsolute base = true)
    (hup : .up ∉ components base) :
    ∃ names, resolve base = above names 0 ∧ (components base).length = names.length + 1 := by
  rw [components_of_isAbsolute habsolute] at hup ⊢
  obtain ⟨ns, hns⟩ := exists_names (fun c => isPlain_of_mem_body) (List.not_mem_of_not_mem_cons hup)
  refine ⟨ns.reverse, ?_, by rw [hns]; simp⟩
  rw [resolve, components_of_isAbsolute habsolute, hns]
  exact foldl_step_names ns [.root]

/-- Behind a directory that is deep enough, a relative path leads where its way says. -/
theorem resolve_join_eq_on {base path : String} {names : List String} (hbase : resolve base = above names 0)
    (hpath : isAbsolute path = false) (hdeep : (wayOf path).out ≤ names.length) :
    resolve (join base path) = (wayOf path).on (above names) := by
  have hstart : (⟨0, []⟩ : Way).on (above names) = above names 0 := rfl
  rw [resolve_join hpath, hbase, ← hstart]
  refine Way.foldl_step_on (root_notMem_of_relative hpath) fun k hk => ?_
  exact step_above (k := k) (hk.trans_le hdeep)

/-- Normalizing keeps the place exactly if the path leads out of the directory by one level at most. -/
theorem normalize_join_normalize_iff {base path : String} (h : IsBaseOf base path) :
    normalize (join base (normalize path)) = normalize (join base path) ↔ (wayOf path).out ≤ 1 := by
  obtain ⟨names, hbase, hlength⟩ := exists_resolve_eq_above h.absolute h.straight
  have hdeep : (wayOf path).out ≤ names.length := by
    have hle := out_wayOf_le path
    have hlt := h.deep
    omega
  have hmod : (wayOf path).out % 2 ≤ names.length := (Nat.mod_le _ 2).trans hdeep
  have hnormalized : resolve (join base (normalize path)) =
      (wayOf (normalize path)).on (above names) := by
    refine resolve_join_eq_on hbase ((isAbsolute_normalize path).trans h.relative) ?_
    rwa [wayOf_normalize h.relative]
  rw [normalize_eq_iff, hnormalized, resolve_join_eq_on hbase h.relative hdeep, wayOf_normalize h.relative,
    Way.on, Way.on, List.append_cancel_left_eq]
  constructor
  · intro heq
    have hout := above_injective hmod hdeep heq
    omega
  · intro hout
    rw [Nat.mod_eq_of_lt (Nat.lt_succ_of_le hout)]

end CodeGraph.Path
