import CodeGraph.Proofs.Walk.Closure
import Mathlib.Data.List.Flatten

namespace CodeGraph

/-!
# Types, members and modules as scopes

Each type, each member with all bodies that are read for it, and each module is a scope of links of
its own. A link that one member holds back for having sent it before is not held back for the next.
-/

/-- The links that the mentions of a module ask for. -/
def Sink.askedByReferences (m : Modules) (root : String) (references : List String) : List Link :=
  references.flatMap fun reference =>
    match m.get? reference with
    | none => []
    | some entry =>
      if entry.root = root then []
      else [⟨root, entry.root, if entry.internal then .module else .external, .reference⟩]

namespace Sink

variable (m : Modules) (root : String)

theorem outward_askedByReferences {references : List String} {l : Link}
    (h : l ∈ askedByReferences m root references) : l.source = root ∧ l.target ≠ root := by
  obtain ⟨reference, -, h⟩ := List.mem_flatMap.mp h
  cases hentry : m.get? reference with
  | none => simp [hentry] at h
  | some entry =>
      by_cases hroot : entry.root = root
      · simp [hentry, hroot] at h
      · simp only [hentry, hroot, if_false, List.mem_singleton] at h
        subst h
        exact ⟨rfl, hroot⟩

def reference (state : Nat × LinkDedup × Sink) (name : String) : Nat × LinkDedup × Sink :=
  match m.get? name with
  | none => state
  | some entry =>
    if entry.root = root then state
    else
      let (link, dedup) :=
          state.2.1.link entry.root (if entry.internal then .module else .external) .reference
      (state.1 + link.toList.length, dedup, state.2.2.link? link)

theorem references_eq_foldl (s : Sink) (references : List String) :
    s.references m root references =
      ((references.foldl (reference m root) (0, .new root, s)).1,
        (references.foldl (reference m root) (0, .new root, s)).2.2) :=
  rfl

theorem foldl_reference_forwards (references : List String) (state : Nat × LinkDedup × Sink)
    (hsource : state.2.1.source = root) :
    Forwards (askedByReferences m root references) state.2
      (references.foldl (reference m root) state).2 := by
  induction references generalizing state with
  | nil => exact .nothing rfl
  | cons name references ih =>
      have hstep : Forwards (askedByReferences m root [name]) state.2
          (reference m root state name).2 := by
        simp only [askedByReferences, List.flatMap_singleton, reference]
        cases m.get? name with
        | none => exact .nothing rfl
        | some entry =>
            by_cases hroot : entry.root = root
            · simp only [hroot, if_true]
              exact .nothing rfl
            · simp only [hroot, if_false]
              exact .one ⟨root, entry.root, if entry.internal then .module else .external,
                .reference⟩ rfl
      have hmore := ih (reference m root state name) (hstep.source_eq.trans hsource)
      simpa [askedByReferences] using hstep.trans hmore

theorem references_isScope (s : Sink) (references : List String) :
    ∃ sent, (s.references m root references).2.links = s.links ++ sent ∧
      IsScope root (askedByReferences m root references) sent := by
  rw [references_eq_foldl]
  exact (foldl_reference_forwards m root references (0, .new root, s) rfl).isScope
    fun l hl => outward_askedByReferences m root hl

end Sink

namespace WalkContext

variable (ctx : WalkContext) (walk : TypeWalk)

/-- What a member refers to, in its declaration and in the bodies that are read for it. -/
def referencesOf (m : WalkedMember) : List Reference :=
  m.symbol.references ++
    (ctx.bodiesRead walk m.id).flatMap fun b => (ctx.mentions b).flatMap BodyRef.references

theorem leadsTo_of_askedByWalked {m : WalkedMember} {l : Link} (h : l ∈ ctx.askedByWalked walk m) :
    ctx.LeadsTo m.name (ctx.referencesOf walk m) l := by
  rcases List.mem_append.mp h with h | h
  · exact (leadsTo_of_askedBySignature h).mono (List.subset_append_left _ _)
  · split at h
    · obtain ⟨b, hb, h⟩ := List.mem_flatMap.mp h
      obtain ⟨r, hr, h⟩ := List.mem_flatMap.mp h
      refine (leadsTo_of_askedByMention h).mono fun x hx => List.mem_append_right _ ?_
      exact List.mem_flatMap.mpr ⟨b, hb, List.mem_flatMap.mpr ⟨r, hr, hx⟩⟩
    · simp at h

theorem memberLinks_isScope (m : WalkedMember) :
    IsScope m.name (ctx.askedByWalked walk m) (ctx.memberLinks walk m) :=
  LinkDedup.isScope_passed_new fun _ hl =>
    have hleads := ctx.leadsTo_of_askedByWalked walk hl
    ⟨hleads.source_eq, hleads.target_ne⟩

/-! ## Links of different members -/

/-- A body that is read for the member mentions a member that is linked to. -/
def MentionsMember (m : WalkedMember) (target : String × NodeKind) : Prop :=
  ctx.view.hasBody m.id = true ∧
    ∃ b ∈ ctx.bodiesRead walk m.id, ∃ ref usage, .member ref usage ∈ ctx.mentions b ∧
      ctx.linkTarget? (.member ref) = some target

theorem mem_bodiesRead_self (member : Nat) : member ∈ ctx.bodiesRead walk member := by
  have hkept : ∀ n b, member ∈ b.visited → member ∈ (ctx.readBodies walk n b).visited := by
    intro n b hb
    obtain ⟨k, hk, -⟩ := ctx.readBodies_invariant walk (P := fun _ b => member ∈ b.visited)
      (fun n b next pending hp hv h => h)
      (fun n b next pending hp hv h => by
        rw [ctx.foldl_mention_visited walk]
        exact List.mem_cons_of_mem next h) n b hb
    exact hk
  have hfuel : ∃ n, ctx.view.memberCount + 1 = n + (ctx.isReadable member).toNat := by
    cases ctx.isReadable member
    · exact ⟨_, rfl⟩
    · exact ⟨_, rfl⟩
  obtain ⟨n, hn⟩ := hfuel
  rw [bodiesRead, List.mem_reverse, hn, ctx.readBodies_meet walk rfl List.not_mem_nil]
  apply hkept
  rw [ctx.foldl_mention_visited walk]
  exact List.mem_cons_self

theorem mem_askedByMention_of_linkTarget? {source : String} {ref : MemberRef}
    {target : String × NodeKind}
    (usage : MemberUsage) (h : ctx.linkTarget? (.member ref) = some target)
    (hne : target.1 ≠ source) :
    ∃ l ∈ ctx.askedByMention source (.member ref usage), l.key = target := by
  simp only [linkTarget?, Option.ite_none_left_eq_some, Option.map_eq_some_iff, not_or] at h
  obtain ⟨⟨hlocal, hgenerated, hctor⟩, name, hname, rfl⟩ := h
  refine ⟨⟨source, name, ctx.memberLinkKind ref, if usage = .access then .memberAccess else .call⟩,
    ?_, rfl⟩
  simp [askedByMention, askedByMember, hlocal, hgenerated, hctor, hname, hne]

/-- What a member's bodies mention is linked to from that member, whatever was sent before. -/
theorem exists_memberLink_of_mentions {m : WalkedMember} {target : String × NodeKind}
    (h : ctx.MentionsMember walk m target) (hne : target.1 ≠ m.name) :
    ∃ l ∈ ctx.memberLinks walk m, l.source = m.name ∧ l.key = target := by
  obtain ⟨hbody, b, hb, ref, usage, hr, hlinked⟩ := h
  obtain ⟨l, hl, hkey⟩ := ctx.mem_askedByMention_of_linkTarget? usage hlinked hne
  have hasked : l ∈ ctx.askedByWalked walk m := by
    simp only [askedByWalked, hbody, if_true]
    exact List.mem_append_right _ (List.mem_flatMap.mpr ⟨b, hb, List.mem_flatMap.mpr ⟨_, hr, hl⟩⟩)
  have hscope := ctx.memberLinks_isScope walk m
  obtain ⟨e, he, hekey⟩ := hscope.complete l hasked
  exact ⟨e, he, hscope.source_eq e he, hekey.trans hkey⟩

theorem own_links {m₁ m₂ : WalkedMember} (h : [m₁, m₂].Sublist (ctx.walkedMembers walk))
    {target : String × NodeKind} (h₁ : ctx.MentionsMember walk m₁ target)
    (h₂ : ctx.MentionsMember walk m₂ target) (hne₁ : target.1 ≠ m₁.name)
    (hne₂ : target.1 ≠ m₂.name) :
    ∃ l₁ l₂ : Link, [l₁, l₂].Sublist ((ctx.walkedMembers walk).flatMap (ctx.memberLinks walk)) ∧
      (l₁.source = m₁.name ∧ l₁.key = target) ∧ l₂.source = m₂.name ∧ l₂.key = target := by
  obtain ⟨l₁, hl₁, hkey₁⟩ := ctx.exists_memberLink_of_mentions walk h₁ hne₁
  obtain ⟨l₂, hl₂, hkey₂⟩ := ctx.exists_memberLink_of_mentions walk h₂ hne₂
  have hpair : [l₁, l₂].Sublist ([m₁, m₂].flatMap (ctx.memberLinks walk)) := by
    simpa using (List.singleton_sublist.mpr hl₁).append (List.singleton_sublist.mpr hl₂)
  exact ⟨l₁, l₂, hpair.trans (h.flatMap _), hkey₁, hkey₂⟩

/-- The links of one type, of one member with its bodies, and of one module are each a scope. The links
that two members have in common go out for each of them. -/
theorem links_scoped (s t u : Sink) (m : Modules) (root : String) (references : List String) :
    (∃ sent : String × TypeSymbol → List Link,
      (ctx.walkTypes s).2.links = s.links ++ (ctx.walkTypes s).1.named.flatMap sent ∧
        ∀ type, IsScope type.1 (ctx.askedByBases type.1 type.2) (sent type)) ∧
    (∃ sent : WalkedMember → List Link,
      (ctx.walkMembers walk t).2.links = t.links ++ (ctx.walkedMembers walk).flatMap sent ∧
        ∀ member, IsScope member.name (ctx.askedByWalked walk member) (sent member)) ∧
    (∃ sent, (u.references m root references).2.links = u.links ++ sent ∧
      IsScope root (Sink.askedByReferences m root references) sent) ∧
    (∀ member, member ∈ ctx.bodiesRead walk member) ∧
    ∀ m₁ m₂ target, [m₁, m₂].Sublist (ctx.walkedMembers walk) → ctx.MentionsMember walk m₁ target →
      ctx.MentionsMember walk m₂ target → target.1 ≠ m₁.name → target.1 ≠ m₂.name →
      ∃ l₁ l₂ : Link, [l₁, l₂].Sublist (ctx.walkMembers walk t).2.links ∧
        (l₁.source = m₁.name ∧ l₁.key = target) ∧ l₂.source = m₂.name ∧ l₂.key = target := by
  refine ⟨?_, ?_, Sink.references_isScope m root u references, ctx.mem_bodiesRead_self walk, ?_⟩
  · exact ⟨fun type => (LinkDedup.new type.1).passed (ctx.askedByBases type.1 type.2),
      ctx.walkTypes_links s,
      fun type => LinkDedup.isScope_passed_new fun _ hl =>
        have hleads := leadsTo_of_askedByBases hl
        ⟨hleads.source_eq, hleads.target_ne⟩⟩
  · exact ⟨ctx.memberLinks walk, ctx.walkMembers_links walk t, ctx.memberLinks_isScope walk⟩
  · intro m₁ m₂ target hpair h₁ h₂ hne₁ hne₂
    obtain ⟨l₁, l₂, hlinks, hown⟩ := ctx.own_links walk hpair h₁ h₂ hne₁ hne₂
    rw [walkMembers_links]
    exact ⟨l₁, l₂, hlinks.trans (List.sublist_append_right _ _), hown⟩

theorem links_scoped_stop :
    ∃ l₁ l₂ : Link,
      [l₁, l₂].Sublist (Sample.context.walkMembers
        ⟨#[⟨Sample.typeSymbol 0, some "lib.N.A", false⟩], .empty⟩ .empty).2.links ∧
      (l₁.source = "lib.N.A.Run()" ∧ l₁.key = ("lib.N.A.Stop()", .member)) ∧
      l₂.source = "lib.N.A.Go()" ∧ l₂.key = ("lib.N.A.Stop()", .member) := by
  have hnames : (Sample.walked 0).name = "lib.N.A.Run()" ∧
      (Sample.walked 1).name = "lib.N.A.Go()" := by
    decide +kernel
  have hlinked : Sample.context.linkTarget? (.member (Sample.memberRef 2)) =
      some ("lib.N.A.Stop()", .member) := by
    decide +kernel
  obtain ⟨-, -, -, hself, hown⟩ := links_scoped Sample.context
    ⟨#[⟨Sample.typeSymbol 0, some "lib.N.A", false⟩], .empty⟩
    .empty .empty .empty Sample.context.modules "lib" []
  have hpair : [Sample.walked 0, Sample.walked 1].Sublist (Sample.context.walkedMembers
      ⟨#[⟨Sample.typeSymbol 0, some "lib.N.A", false⟩], .empty⟩) :=
    List.sublist_append_left [Sample.walked 0, Sample.walked 1] [Sample.walked 2]
  have h := hown (Sample.walked 0) (Sample.walked 1) ("lib.N.A.Stop()", .member) hpair
    ⟨rfl, 0, hself 0, _, .call, List.mem_cons_of_mem _ List.mem_cons_self, hlinked⟩
    ⟨rfl, 1, hself 1, _, .call, List.mem_cons_self, hlinked⟩
  rw [hnames.1, hnames.2] at h
  exact h (by decide) (by decide)

end WalkContext

end CodeGraph
