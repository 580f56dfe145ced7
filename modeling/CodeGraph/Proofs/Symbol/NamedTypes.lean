import CodeGraph.Symbol.TypeRef

namespace CodeGraph.TypeRef

/-!
# The named types of a type

The place of a named type is told by the arguments that lead to it, while marks do not count. The types
are listed place by place: a type before its arguments, and these from left to right.
-/

/-- The named type at a place: under the marks of the whole, or at a place in one of its arguments. -/
def namedAt? (t : TypeRef) : List Nat → Option NamedType
  | [] => t.asNamed?
  | i :: place => t.asNamed?.bind fun type => type.args[i]?.bind fun arg => arg.namedAt? place

mutual

/-- The named types of a type with their places, each before those in its arguments. -/
def places : TypeRef → List (List Nat × NamedType)
  | named ⟨owner, ns, nesting, args, handle⟩ =>
    ([], ⟨owner, ns, nesting, args, handle⟩) :: placesInArgs 0 args
  | array element => places element
  | pointer target => places target
  | byRef target => places target
  | param _ => []

/-- The named types in arguments, of which the first has the given number. -/
def placesInArgs (i : Nat) : List TypeRef → List (List Nat × NamedType)
  | [] => []
  | arg :: more => (places arg).map (fun e => (i :: e.1, e.2)) ++ placesInArgs (i + 1) more

end

/-- The type at a place, and whether the place lies in some argument list. -/
def flagged (inArg : Bool) (e : List Nat × NamedType) : NamedType × Bool :=
  (e.2, inArg || !e.1.isEmpty)

theorem places_eq (t : TypeRef) :
    t.places = t.asNamed?.elim [] fun type => ([], type) :: placesInArgs 0 type.args := by
  cases t with
  | named type => rw [places, asNamed?, Option.elim_some]
  | array element => rw [places, places_eq element, asNamed?]
  | pointer target => rw [places, places_eq target, asNamed?]
  | byRef target => rw [places, places_eq target, asNamed?]
  | param name => rw [places, asNamed?, Option.elim_none]

/-! ## Every place once -/

theorem mem_placesInArgs {args : List TypeRef} {i : Nat} {e : List Nat × NamedType} :
    e ∈ placesInArgs i args ↔
      ∃ j rest arg, e.1 = (i + j) :: rest ∧ args[j]? = some arg ∧ (rest, e.2) ∈ arg.places := by
  induction args generalizing i with
  | nil => simp [placesInArgs]
  | cons first more ih =>
      rw [placesInArgs, List.mem_append, List.mem_map, ih]
      constructor
      · rintro (⟨inner, hinner, rfl⟩ | ⟨j, rest, arg, hplace, harg, hmem⟩)
        · exact ⟨0, inner.1, first, rfl, rfl, hinner⟩
        · exact ⟨j + 1, rest, arg, by rw [hplace, Nat.add_assoc, Nat.add_comm 1], harg, hmem⟩
      · rintro ⟨j, rest, arg, hplace, harg, hmem⟩
        cases j with
        | zero =>
            obtain rfl : first = arg := Option.some.inj harg
            exact Or.inl ⟨(rest, e.2), hmem, Prod.ext hplace.symm rfl⟩
        | succ j =>
            exact Or.inr ⟨j, rest, arg, by rw [hplace, Nat.add_assoc, Nat.add_comm 1], harg, hmem⟩

theorem mem_places {t : TypeRef} {place : List Nat} {type : NamedType} :
    (place, type) ∈ t.places ↔ t.namedAt? place = some type := by
  induction place generalizing t with
  | nil =>
      rw [places_eq, namedAt?]
      cases t.asNamed? with
      | none => simp
      | some outer => simp [mem_placesInArgs, eq_comm]
  | cons i place ih =>
      rw [places_eq, namedAt?]
      cases t.asNamed? with
      | none => simp
      | some outer =>
          rw [Option.elim_some, Option.bind_some, Option.bind_eq_some_iff, List.mem_cons, mem_placesInArgs]
          constructor
          · rintro (hself | ⟨j, rest, arg, hplace, harg, hmem⟩)
            · cases hself
            · obtain ⟨rfl, rfl⟩ := List.cons.inj hplace
              rw [Nat.zero_add]
              exact ⟨arg, harg, ih.mp hmem⟩
          · rintro ⟨arg, harg, hinner⟩
            exact Or.inr ⟨i, place, arg, by rw [Nat.zero_add], harg, ih.mpr hinner⟩

mutual

theorem pairwise_places (t : TypeRef) : t.places.Pairwise fun a b => a.1 < b.1 := by
  cases t with
  | named type =>
      obtain ⟨owner, ns, nesting, args, handle⟩ := type
      rw [places, List.pairwise_cons]
      refine ⟨fun e he => ?_, pairwise_placesInArgs 0 args⟩
      obtain ⟨j, rest, arg, hplace, -, -⟩ := mem_placesInArgs.mp he
      rw [hplace]
      exact List.nil_lt_cons _ _
  | array element =>
      rw [places]
      exact pairwise_places element
  | pointer target =>
      rw [places]
      exact pairwise_places target
  | byRef target =>
      rw [places]
      exact pairwise_places target
  | param name =>
      rw [places]
      exact List.Pairwise.nil

theorem pairwise_placesInArgs (i : Nat) (args : List TypeRef) :
    (placesInArgs i args).Pairwise fun a b => a.1 < b.1 := by
  cases args with
  | nil =>
      rw [placesInArgs]
      exact List.Pairwise.nil
  | cons first more =>
      rw [placesInArgs, List.pairwise_append, List.pairwise_map]
      refine ⟨(pairwise_places first).imp fun h => List.cons_lt_cons_self.mpr h,
        pairwise_placesInArgs (i + 1) more, ?_⟩
      intro a ha b hb
      obtain ⟨inner, -, rfl⟩ := List.mem_map.mp ha
      obtain ⟨j, rest, arg, hplace, -, -⟩ := mem_placesInArgs.mp hb
      rw [hplace]
      exact List.Lex.rel (by omega)

end

/-! ## The stack -/

theorem pushArgs_eq (args : List TypeRef) (rest : List (TypeRef × Bool)) :
    pushArgs args rest = args.map (·, true) ++ rest := by
  induction args with
  | nil => rfl
  | cons arg args ih => rw [pushArgs, ih, List.map_cons, List.cons_append]

/-- What is pushed for the arguments of a type gives the types at the places in them. -/
theorem flatMap_args (i : Nat) (inArg : Bool) (args : List TypeRef) :
    (args.map (·, true)).flatMap (fun e => e.1.places.map (flagged e.2)) =
      (placesInArgs i args).map (flagged inArg) := by
  induction args generalizing i with
  | nil => rw [placesInArgs, List.map_nil, List.flatMap_nil, List.map_nil]
  | cons arg args ih =>
      rw [placesInArgs, List.map_cons, List.flatMap_cons, ih (i + 1), List.map_append, List.map_map]
      congr 1
      refine List.map_congr_left fun e _ => ?_
      simp [flagged]

theorem namedTypesFrom_eq (stack : List (TypeRef × Bool)) :
    namedTypesFrom stack = stack.flatMap fun e => e.1.places.map (flagged e.2) := by
  induction stack using namedTypesFrom.induct with
  | case1 => rw [namedTypesFrom, List.flatMap_nil]
  | case2 type inArg rest ih =>
      rw [namedTypesFrom, ih, pushArgs_eq, List.flatMap_append, flatMap_args 0 inArg, List.flatMap_cons,
        places_eq, asNamed?, Option.elim_some, List.map_cons, List.cons_append]
      simp [flagged]
  | case3 t inArg rest ih => rw [namedTypesFrom, ih, List.flatMap_cons, List.flatMap_cons, places]
  | case4 t inArg rest ih => rw [namedTypesFrom, ih, List.flatMap_cons, List.flatMap_cons, places]
  | case5 t inArg rest ih => rw [namedTypesFrom, ih, List.flatMap_cons, List.flatMap_cons, places]
  | case6 name inArg rest ih =>
      rw [namedTypesFrom, ih, List.flatMap_cons, places, List.map_nil, List.nil_append]

/-- Only the type under the marks of the whole stands in no argument list. -/
theorem filter_flagged (t : TypeRef) :
    (t.places.map (flagged false)).filter (! ·.2) = t.asNamed?.toList.map (·, false) := by
  rw [places_eq]
  cases t.asNamed? with
  | none => rfl
  | some type =>
      have hargs : ((placesInArgs 0 type.args).map (flagged false)).filter (! ·.2) = [] := by
        rw [List.filter_eq_nil_iff, List.forall_mem_map]
        intro e he
        obtain ⟨j, rest, arg, hplace, -, -⟩ := mem_placesInArgs.mp he
        simp [flagged, hplace]
      rw [Option.elim_some, List.map_cons, List.filter_cons_of_pos (by rfl), hargs]
      rfl

/-- The named types of a type are listed in the order of their places, each place once, with a flag for
those in some argument list. The type without a flag, if there is one, is that of the whole. -/
theorem namedTypes_inOrder (t : TypeRef) :
    t.namedTypes = t.places.map (fun e => (e.2, !e.1.isEmpty)) ∧
      t.places.Pairwise (fun a b => a.1 < b.1) ∧
      (∀ place type, (place, type) ∈ t.places ↔ t.namedAt? place = some type) ∧
      t.namedTypes.filter (! ·.2) = t.asNamed?.toList.map (·, false) := by
  have hlisted : t.namedTypes = t.places.map (flagged false) := by
    rw [namedTypes, namedTypesFrom_eq, List.flatMap_cons, List.flatMap_nil, List.append_nil]
  refine ⟨?_, pairwise_places t, fun place type => mem_places, ?_⟩
  · rw [hlisted]
    exact List.map_congr_left fun e _ => rfl
  · rw [hlisted, filter_flagged]

end CodeGraph.TypeRef
