import Multicast.Proofs.Cost.PathTree

/-!
# `Multicast.Proofs.Cost.Agreement`: which paths make a tree

The paths merged into a tree may be any lists of hops from one chip. They agree when no hop
lands on the source and each chip is always landed on over one link from one chip, in one list
and across lists (`Agree`). `toTree_exact` says that the paths that agree make a tree, that all
others are refused for a chip some hop lands on, and what the tree is: its chips are the source
and those landed on, and each list is the path from the root to where it ends.

Paths that agree follow the record of how each chip is landed on first, and paths that follow a
record can be merged (`CostPaths.grow_spec`). Conversely nothing is assumed of paths that have
been merged: what a hop finds or adds stays where it is (`Merges`), so each list of hops is a
path of the tree in the end (`mergePaths_spec`). A node of a proper tree has one path from the
root (`RouteTree.Path.unique`), hence its chip is landed on in one way only.
-/

set_option autoImplicit false

namespace Multicast

open Growth (Sound Gains)

/-! ### Paths of a tree -/

namespace RouteTree

/-- Hops over the edges that lead from one node to another. -/
def Path (t : RouteTree) : NodeId → List Hop → NodeId → Prop
  | m, [], n => m = n
  | m, hop :: rest, n => ∃ k, (some (.link hop.link), k) ∈ t.childNodes m ∧
      t.chip? k = some hop.chip ∧ Path t k rest n

/-- What is in one tree is in another at its place. -/
structure Within (t u : RouteTree) : Prop where
  root : u.root = t.root
  chips : ∀ {n c}, t.chip? n = some c → u.chip? n = some c
  edges : ∀ {p e}, e ∈ t.childNodes p → e ∈ u.childNodes p

variable {t u v : RouteTree} {m n p : NodeId} {a c : Chip} {hop : Hop} {hops hops' : List Hop}

/-- A tree is in itself, which is where a row of merged hops starts. -/
theorem Within.refl (t : RouteTree) : t.Within t :=
  ⟨rfl, id, id⟩

/-- What a tree has kept is kept by what that has become, so hops can be merged one after another. -/
theorem Within.trans (h : t.Within u) (h' : u.Within v) : t.Within v :=
  ⟨h'.root.trans h.root, fun hc => h'.chips (h.chips hc), fun he => h'.edges (h.edges he)⟩

/-- A node added below another leaves the rest as it was. -/
theorem within_addChild (hp : p < t.size) (route : Option Route) (c : Chip) :
    t.Within (t.addChild p route c) where
  root := rfl
  chips {n b} hn := by
    rw [chip?_addChild, if_neg (Nat.ne_of_lt (lt_size_of_chip? hn))]
    exact hn
  edges {q e} he := by
    rw [childNodes_addChild hp]
    split
    · exact List.mem_append_left _ he
    · exact he

namespace Path

/-- A path of the tree over two rows of hops passes a node where the first row ends and the second
begins. -/
theorem append {rest : List Hop} : t.Path m (hops ++ rest) n ↔
    ∃ p, t.Path m hops p ∧ t.Path p rest n := by
  induction hops generalizing m with
  | nil => simp [Path]
  | cons hop hops ih =>
      simp only [List.cons_append, Path, ih]
      constructor
      · rintro ⟨k, hedge, hc, p, hp, hrest⟩
        exact ⟨p, ⟨k, hedge, hc, hp⟩, hrest⟩
      · rintro ⟨p, ⟨k, hedge, hc, hp⟩, hrest⟩
        exact ⟨k, hedge, hc, p, hp, hrest⟩

/-- The last hop of a path is an edge below the node that the hops before it lead to, and lands on
the chip of the end. -/
theorem snoc : t.Path m (hops ++ [hop]) n ↔ ∃ p, t.Path m hops p ∧
    (some (.link hop.link), n) ∈ t.childNodes p ∧ t.chip? n = some hop.chip := by
  rw [append]
  refine exists_congr fun p => and_congr_right fun _ => ?_
  constructor
  · rintro ⟨k, hedge, hc, rfl⟩
    exact ⟨hedge, hc⟩
  · exact fun h => ⟨n, h.1, h.2, rfl⟩

/-- A path stays a path while the tree grows, node for node. -/
theorem mono (h : t.Path m hops n) (hwithin : t.Within u) : u.Path m hops n := by
  induction hops generalizing m with
  | nil => exact h
  | cons hop rest ih =>
      obtain ⟨k, hedge, hc, hrest⟩ := h
      exact ⟨k, hwithin.edges hedge, hwithin.chips hc, ih hrest⟩

/-- A path ends on the chip of its last hop. -/
theorem chip?_eq (h : t.Path m hops n) (hm : t.chip? m = some a) :
    t.chip? n = some (Grid.endOf a hops) := by
  induction hops generalizing m a with
  | nil =>
      obtain rfl : m = n := h
      exact hm
  | cons hop rest ih =>
      obtain ⟨k, -, hc, hrest⟩ := h
      rw [Grid.endOf_cons]
      exact ih hrest hc

/-- Where a path leads is below where it starts. -/
theorem below (h : t.Path m hops n) : t.Below m n := by
  induction hops generalizing m with
  | nil =>
      obtain rfl : m = n := h
      exact .refl
  | cons hop rest ih =>
      obtain ⟨k, hedge, -, hrest⟩ := h
      exact Relation.ReflTransGen.head (adjacent_iff.2 (mem_kids.2 ⟨_, hedge⟩)) (ih hrest)

/-- In a proper tree one path leads from the root to a node. By induction on the hops from the last
one. -/
theorem unique (ht : t.IsProper) (h : t.Path t.root hops n) (h' : t.Path t.root hops' n) :
    hops = hops' := by
  -- Back from the end: the node has one parent, and its parent one edge to it.
  induction hops using List.reverseRecOn generalizing hops' n with
  | nil =>
      obtain rfl : t.root = n := h
      cases hops' using List.reverseRecOn with
      | nil => rfl
      | append_singleton init hop =>
          obtain ⟨p, hp, hedge, -⟩ := snoc.1 h'
          exact absurd (mem_kids.2 ⟨_, hedge⟩) (ht.root_not_kid hp.below)
  | append_singleton init hop ih =>
      obtain ⟨p, hp, hedge, hc⟩ := snoc.1 h
      have hkid := mem_kids.2 ⟨_, hedge⟩
      cases hops' using List.reverseRecOn with
      | nil =>
          obtain rfl : t.root = n := h'
          exact absurd hkid (ht.root_not_kid hp.below)
      | append_singleton init' hop' =>
          obtain ⟨p', hp', hedge', hc'⟩ := snoc.1 h'
          obtain rfl := ht.parent_unique hp.below hp'.below hkid (mem_kids.2 ⟨_, hedge'⟩)
          have hnodup := ht.nodup_kids hp.below
          rw [kids_eq] at hnodup
          have hroute := congrArg Prod.fst (List.inj_on_of_nodup_map hnodup hedge hedge' rfl)
          obtain ⟨link, chip⟩ := hop
          obtain ⟨link', chip'⟩ := hop'
          obtain rfl : link = link' := Route.link.inj (Option.some.inj hroute)
          obtain rfl : chip = chip' := Option.some.inj (hc.symm.trans hc')
          rw [ih hp hp']

end Path

end RouteTree

/-! ### Landings -/

/-- A hop with the chip it is made from. -/
structure Landing where
  before : Chip
  hop : Hop
deriving DecidableEq

namespace Landing

variable {x : Landing} {a : Chip} {hops : List Hop}

/-- The hops of a path from a chip, each with the chip it is made from. -/
def along : Chip → List Hop → List Landing
  | _, [] => []
  | a, hop :: rest => ⟨a, hop⟩ :: along hop.chip rest

/-- A landing belongs to a path when some hops of the path lead to the chip it is made from and its
hop is the next one. -/
theorem mem_along : x ∈ along a hops ↔
    ∃ passed rest, hops = passed ++ x.hop :: rest ∧ Grid.endOf a passed = x.before := by
  induction hops generalizing a with
  | nil => simp [along]
  | cons hop hops ih =>
      rw [along, List.mem_cons, ih]
      constructor
      · rintro (rfl | ⟨passed, rest, rfl, hbefore⟩)
        · exact ⟨[], hops, rfl, rfl⟩
        · exact ⟨hop :: passed, rest, rfl, by rwa [Grid.endOf_cons]⟩
      · rintro ⟨passed, rest, heq, hbefore⟩
        cases passed with
        | nil =>
            obtain ⟨rfl, rfl⟩ := List.cons.inj heq
            exact .inl (congrArg (Landing.mk · _) hbefore.symm)
        | cons first passed =>
            obtain ⟨rfl, rfl⟩ := List.cons.inj heq
            rw [Grid.endOf_cons] at hbefore
            exact .inr ⟨passed, rest, rfl, hbefore⟩

/-- The chips landed on are those of the hops. -/
theorem map_along (a : Chip) (hops : List Hop) :
    (along a hops).map (·.hop.chip) = hops.map (·.chip) := by
  induction hops generalizing a with
  | nil => rfl
  | cons hop rest ih => rw [along, List.map_cons, List.map_cons, ih]

end Landing

/-- Hops follow a record that notes how each of them lands. -/
theorem follows_of_landings {before : Chip → Option (Direction × Chip)} {a : Chip}
    {hops : List Hop}
    (h : ∀ x ∈ Landing.along a hops, before x.hop.chip = some (x.hop.link, x.before)) :
    Follows before a hops (Grid.endOf a hops) := by
  induction hops generalizing a with
  | nil => rfl
  | cons hop rest ih =>
      obtain ⟨hfirst, hrest⟩ := List.forall_mem_cons.1 h
      rw [Grid.endOf_cons]
      exact ⟨hfirst, ih hrest⟩

namespace CostPaths

variable {p : CostPaths} {a c : Chip} {x : Landing} {g g' g'' : Growth} {last n : NodeId}
  {hop : Hop} {hops : List Hop} {paths : List (Chip × List Hop)} {chips chips' : List Chip}
  {e : RouteError} {t : RouteTree}

/-- The hops of all paths, each with the chip it is made from. -/
def landings (p : CostPaths) : List Landing :=
  p.paths.flatMap fun path => Landing.along p.source path.2

/-- The chips landed on are those of all hops. -/
theorem map_landings (p : CostPaths) :
    p.landings.map (·.hop.chip) = p.paths.flatMap fun path => path.2.map (·.chip) := by
  simp only [landings, List.map_flatMap, Landing.map_along]

/-- No hop lands on the source, and a chip is always landed on over one link from one chip. -/
structure Agree (p : CostPaths) : Prop where
  away : ∀ x ∈ p.landings, x.hop.chip ≠ p.source
  alike : ∀ x ∈ p.landings, ∀ y ∈ p.landings, x.hop.chip = y.hop.chip →
    x.hop.link = y.hop.link ∧ x.before = y.before

instance (p : CostPaths) : Decidable p.Agree :=
  decidable_of_iff (_ ∧ _) ⟨fun h => Agree.mk h.1 h.2, fun h => ⟨h.away, h.alike⟩⟩

/-- A tree made of paths from a source and of nothing else. -/
structure Makes (p : CostPaths) (t : RouteTree) : Prop where
  proper : t.IsProper
  root : t.chip? t.root = some p.source
  whole : ∀ n < t.size, t.Below t.root n
  nodup : t.reachedChips.Nodup
  chips : ∀ c, c ∈ t.reachedChips ↔ c = p.source ∨ ∃ x ∈ p.landings, x.hop.chip = c
  path : ∀ path ∈ p.paths, ∃ n, t.chip? n = some (Grid.endOf p.source path.2) ∧
    ∀ hops, t.Path t.root hops n ↔ hops = path.2

/-! ### Paths that agree can be merged -/

/-- The link over which a chip is landed on first, and the chip from which. -/
def firstLanding? (p : CostPaths) (c : Chip) : Option (Direction × Chip) :=
  (p.landings.find? fun x => x.hop.chip == c).map fun x => (x.hop.link, x.before)

/-- In paths that agree nothing lands on the source, so it has no record and can stand at the root. -/
theorem Agree.firstLanding?_source (h : p.Agree) : p.firstLanding? p.source = none := by
  rw [firstLanding?, Option.map_eq_none_iff, List.find?_eq_none]
  exact fun x hx heq => h.away x hx (eq_of_beq heq)

/-- When paths agree, all landings on a chip are like the first. -/
theorem Agree.firstLanding?_eq (h : p.Agree) (hx : x ∈ p.landings) :
    p.firstLanding? x.hop.chip = some (x.hop.link, x.before) := by
  unfold firstLanding?
  cases hfind : p.landings.find? fun y => y.hop.chip == x.hop.chip with
  | none => exact absurd (beq_self_eq_true _) (List.find?_eq_none.1 hfind x hx)
  | some y =>
      obtain ⟨hlink, hbefore⟩ := h.alike y (List.mem_of_find?_eq_some hfind) x hx
        (eq_of_beq (List.find?_some hfind :))
      rw [Option.map_some, hlink, hbefore]

/-- The names of the paths do not matter to their merging. -/
theorem mergePaths_map (name : Chip × List Hop → Chip) :
    mergePaths g (paths.map fun path => (name path, path.2)) = mergePaths g paths := by
  induction paths generalizing g with
  | nil => rfl
  | cons path rest ih => simp only [List.map_cons, mergePaths, ih]

/-- Paths that agree make a tree. The paths follow the record of first landings, for which merging
is known to succeed (`grow_spec`). -/
theorem Agree.exists_toTree (h : p.Agree) : ∃ t, p.toTree = .ok t := by
  -- Each path under the name of the chip it ends on: then it follows the first landings.
  let named : CostPaths :=
    ⟨p.source, p.paths.map fun path => (Grid.endOf p.source path.2, path.2)⟩
  have hfollows : ∀ path ∈ named.paths, Follows p.firstLanding? p.source path.2 path.1 := by
    intro _ hmem
    obtain ⟨path, hpath, rfl⟩ := List.mem_map.1 hmem
    exact follows_of_landings fun x hx =>
      h.firstLanding?_eq (List.mem_flatMap.2 ⟨path, hpath, hx⟩)
  obtain ⟨g, hok, -⟩ := grow_spec (p := named) rfl h.firstLanding?_source hfollows
  exact ⟨g.tree, toTree_eq_ok.2 ⟨g, (mergePaths_map _).symm.trans hok, rfl⟩⟩

/-! ### What merged paths have made -/

/-- A tree that came from another by hops onto some chips. -/
structure Merges (g g' : Growth) (chips : List Chip) : Prop where
  sound : Sound (fun _ => True) [] g'
  gains : Gains g g' chips
  within : g.tree.Within g'.tree

/-- What two rows of hops make, one after the other, is made by both together, and the chips landed
on add up. -/
theorem Merges.trans (h : Merges g g' chips) (h' : Merges g' g'' chips') :
    Merges g g'' (chips ++ chips') :=
  ⟨h'.sound, h.gains.trans h'.gains, h.within.trans h'.within⟩

/-- A hop that is merged is an edge below the node it was made from. The hop is there already, and
then nothing changes, or the chip it lands on is new and gets a node below. -/
theorem mergeHop_spec (h : Sound (fun _ => True) [] g) (hlast : g.tree.chip? last = some a)
    (hok : mergeHop g last hop = .ok (g', n)) :
    Merges g g' [hop.chip] ∧ g'.tree.Path last [hop] n := by
  unfold mergeHop at hok
  cases hn : g.index.get? hop.chip with
  | some found =>
      simp only [hn] at hok
      split at hok
      · next hedge =>
        obtain ⟨rfl, rfl⟩ := Prod.mk.inj (Except.ok.inj hok)
        have hin := Growth.contains_iff_exists.2 ⟨_, hn⟩
        refine ⟨⟨h, ⟨id, fun {b} => ?_⟩, .refl _⟩, _, ?_, h.indexed.1 hn, rfl⟩
        · rw [List.mem_singleton, iff_self_or]
          rintro rfl
          exact hin
        · exact RouteTree.mem_childNodes.2 (List.contains_iff_mem.1 hedge)
      · contradiction
  | none =>
      simp only [hn, RouteTree.newest_addChild] at hok
      obtain ⟨rfl, rfl⟩ := Prod.mk.inj (Except.ok.inj hok)
      have hlt := RouteTree.lt_size_of_chip? hlast
      have hsound := (h.mono fun b _ => Or.inl trivial).addChild hlast hn (some (.link hop.link))
      refine ⟨⟨hsound.mono fun _ _ => trivial, .addChild hn last _,
        RouteTree.within_addChild hlt _ _⟩, _, ?_, ?_, rfl⟩
      · simp [RouteTree.childNodes_addChild hlt]
      · simp

/-- Hops that are merged are a path of the tree. By induction on the hops. What the first one has
made is still there when the rest is merged. -/
theorem mergePath_spec (h : Sound (fun _ => True) [] g) (hlast : g.tree.chip? last = some a)
    (hok : mergePath g last hops = .ok g') :
    Merges g g' (hops.map (·.chip)) ∧ ∃ n, g'.tree.Path last hops n := by
  induction hops generalizing g last a with
  | nil =>
      obtain rfl := Except.ok.inj hok
      exact ⟨⟨h, .refl _, .refl _⟩, last, rfl⟩
  | cons hop rest ih =>
      obtain ⟨⟨next, k⟩, hnext, hok⟩ := bind_eq_ok.1 hok
      obtain ⟨hmerges, k', hedge, hc, rfl⟩ := mergeHop_spec h hlast hnext
      obtain ⟨hmerges', n, hpath⟩ := ih hmerges.sound hc hok
      exact ⟨hmerges.trans hmerges', n, k', hmerges'.within.edges hedge,
        hmerges'.within.chips hc, hpath⟩

/-- Paths that are merged are all paths of the tree, and their hops land on its new chips. By
induction on the paths, all of which start at the root. What earlier paths have made is kept by the
later ones (`Path.mono`). -/
theorem mergePaths_spec (h : Sound (fun _ => True) [] g)
    (hroot : g.tree.chip? g.tree.root = some a) (hok : mergePaths g paths = .ok g') :
    Merges g g' (paths.flatMap fun path => path.2.map (·.chip)) ∧
      ∀ path ∈ paths, ∃ n, g'.tree.Path g'.tree.root path.2 n := by
  induction paths generalizing g with
  | nil =>
      obtain rfl := Except.ok.inj hok
      exact ⟨⟨h, .refl _, .refl _⟩, by simp⟩
  | cons path rest ih =>
      obtain ⟨next, hnext, hok⟩ := bind_eq_ok.1 hok
      obtain ⟨hmerges, n, hpath⟩ := mergePath_spec h hroot hnext
      have hroot' := hmerges.within.chips hroot
      rw [← hmerges.within.root] at hroot'
      obtain ⟨hmerges', hpaths⟩ := ih hmerges.sound hroot' hok
      have hkept := hpath.mono hmerges'.within
      rw [← hmerges.within.root, ← hmerges'.within.root] at hkept
      exact ⟨hmerges.trans hmerges', List.forall_mem_cons.2 ⟨⟨n, hkept⟩, hpaths⟩⟩

/-- The tree of paths that were merged, agreeing or not, is made of them. The tree starts as the
root alone, and the chips it gains are those landed on. A path to a chip is the only one because the
tree is proper (`Path.unique`). -/
theorem makes_of_toTree (h : p.toTree = .ok t) : p.Makes t := by
  obtain ⟨g, hok, rfl⟩ := toTree_eq_ok.1 h
  have hsingle := Growth.sound_single p.source fun _ => True
  obtain ⟨hmerges, hpaths⟩ := mergePaths_spec hsingle rfl hok
  have hroot : g.tree.chip? g.tree.root = some p.source := by
    rw [hmerges.within.root]
    exact hmerges.within.chips rfl
  have hproper := hmerges.sound.isProper
  refine ⟨hproper, hroot, fun n => hmerges.sound.below, hproper.nodup_reachedChips, fun c => ?_,
    fun path hpath => ?_⟩
  · -- The chips of the tree are those of its index: the one it started with and those gained.
    have hindex : c ∈ g.tree.reachedChips ↔ g.index.contains c = true := by
      simp only [hproper.mem_reachedChips, Growth.contains_iff_exists, hmerges.sound.indexed]
      exact exists_congr fun n =>
        and_iff_right_of_imp fun hn => hmerges.sound.below (RouteTree.lt_size_of_chip? hn)
    rw [hindex, hmerges.gains.contains, Growth.contains_single, ← p.map_landings, List.mem_map]
  · obtain ⟨n, hn⟩ := hpaths path hpath
    exact ⟨n, hn.chip?_eq hroot, fun hops =>
      ⟨fun hhops => hhops.unique hproper hn, fun heq => heq ▸ hn⟩⟩

/-- Each landing is the end of a path from the root, which starts with the part before it. -/
theorem Makes.exists_path (h : p.Makes t) (hx : x ∈ p.landings) :
    ∃ passed n, t.Path t.root (passed ++ [x.hop]) n ∧ t.chip? n = some x.hop.chip ∧
      Grid.endOf p.source passed = x.before := by
  obtain ⟨path, hpath, hx⟩ := List.mem_flatMap.1 hx
  obtain ⟨passed, rest, heq, hbefore⟩ := Landing.mem_along.1 hx
  obtain ⟨_, -, hpaths⟩ := h.path path hpath
  have hwhole := (hpaths _).2 rfl
  rw [heq, List.append_cons] at hwhole
  obtain ⟨n, hn, -⟩ := RouteTree.Path.append.1 hwhole
  obtain ⟨_, -, -, hc⟩ := RouteTree.Path.snoc.1 hn
  exact ⟨passed, n, hn, hc, hbefore⟩

/-- Paths that have made a tree agree. A chip has one node in the tree, and that has one path from
the root; so two landings on a chip have the same hop, made from the same chip. -/
theorem Makes.agree (h : p.Makes t) : p.Agree where
  away x hx hsource := by
    obtain ⟨passed, n, hn, hc, -⟩ := h.exists_path hx
    -- The node would be the root, to which no hops lead.
    rw [hsource] at hc
    obtain rfl := h.proper.eq_of_chip? .refl hn.below (h.root.trans hc.symm)
    have hnone : t.Path t.root [] t.root := rfl
    have hnil := hn.unique h.proper hnone
    simp at hnil
  alike x hx y hy heq := by
    obtain ⟨passed, m, hm, hmc, hbefore⟩ := h.exists_path hx
    obtain ⟨passed', n, hn, hnc, hbefore'⟩ := h.exists_path hy
    rw [heq] at hmc
    obtain rfl := h.proper.eq_of_chip? hm.below hn.below (hmc.trans hnc.symm)
    obtain ⟨rfl, hhop⟩ := List.append_inj' (hm.unique h.proper hn) rfl
    exact ⟨congrArg Hop.link (List.singleton_inj.1 hhop), hbefore.symm.trans hbefore'⟩

/-! ### Paths that are refused -/

/-- A hop is refused for one thing only, that the chip it lands on is in the tree but not below the
node it is made from over its link; and the error names this chip. -/
theorem mergeHop_error (h : mergeHop g last hop = .error e) : e = .revisited hop.chip := by
  unfold mergeHop at h
  cases hn : g.index.get? hop.chip with
  | none =>
      simp only [hn] at h
      contradiction
  | some n =>
      simp only [hn] at h
      split at h
      · contradiction
      · exact (Except.error.inj h).symm

/-- A path is refused for one of its hops. By induction on the hops, up to the one refused. -/
theorem mergePath_error (h : mergePath g last hops = .error e) :
    ∃ c ∈ hops.map (·.chip), e = .revisited c := by
  induction hops generalizing g last with
  | nil => contradiction
  | cons hop rest ih =>
      rw [mergePath] at h
      cases hstep : mergeHop g last hop with
      | ok next =>
          rw [hstep] at h
          obtain ⟨c, hc, he⟩ := ih h
          exact ⟨c, List.mem_cons_of_mem _ hc, he⟩
      | error e' =>
          rw [hstep] at h
          obtain rfl : e' = e := Except.error.inj h
          exact ⟨hop.chip, List.mem_cons_self .., mergeHop_error hstep⟩

/-- Paths are refused for a chip that one of them lands on, so the error can be traced to the paths
that were given. -/
theorem mergePaths_error (h : mergePaths g paths = .error e) :
    ∃ c ∈ paths.flatMap fun path => path.2.map (·.chip), e = .revisited c := by
  induction paths generalizing g with
  | nil => contradiction
  | cons path rest ih =>
      rw [mergePaths] at h
      rw [List.flatMap_cons]
      cases hstep : mergePath g g.tree.root path.2 with
      | ok next =>
          rw [hstep] at h
          obtain ⟨c, hc, he⟩ := ih h
          exact ⟨c, List.mem_append_right _ hc, he⟩
      | error e' =>
          rw [hstep] at h
          obtain rfl : e' = e := Except.error.inj h
          obtain ⟨c, hc, he⟩ := mergePath_error hstep
          exact ⟨c, List.mem_append_left _ hc, he⟩

/-- Paths are refused for nothing but a chip that one of their hops lands on. -/
theorem toTree_error (h : p.toTree = .error e) :
    ∃ x ∈ p.landings, e = .revisited x.hop.chip := by
  rw [toTree] at h
  cases hgrow : p.grow with
  | ok g =>
      rw [hgrow] at h
      contradiction
  | error e' =>
      rw [hgrow] at h
      obtain rfl : e' = e := Except.error.inj h
      obtain ⟨c, hc, rfl⟩ := mergePaths_error hgrow
      rw [← p.map_landings] at hc
      obtain ⟨x, hx, rfl⟩ := List.mem_map.1 hc
      exact ⟨x, hx, rfl⟩

/-- Paths make a tree exactly if they agree, and are refused for a chip landed on otherwise. The
tree is rooted at the source, has the source and the chips landed on, each once, and has each list
of hops as the one path from the root to where the list ends. -/
theorem toTree_exact (p : CostPaths) :
    ((∃ t, p.toTree = .ok t) ↔ p.Agree) ∧
      (¬ p.Agree → ∃ x ∈ p.landings, p.toTree = .error (.revisited x.hop.chip)) ∧
      ∀ t, p.toTree = .ok t → p.Makes t := by
  have hiff : (∃ t, p.toTree = .ok t) ↔ p.Agree :=
    ⟨fun ⟨_, ht⟩ => (makes_of_toTree ht).agree, fun h => h.exists_toTree⟩
  refine ⟨hiff, fun hnot => ?_, fun _ => makes_of_toTree⟩
  cases hresult : p.toTree with
  | ok t => exact absurd (hiff.1 ⟨t, hresult⟩) hnot
  | error e =>
      obtain ⟨x, hx, rfl⟩ := toTree_error hresult
      exact ⟨x, hx, rfl⟩

/-- Two ways to one chip: on a torus two chips wide both horizontal links lead there. -/
def bothWays : CostPaths :=
  ⟨⟨0, 0⟩, [(⟨1, 0⟩, [⟨.east, ⟨1, 0⟩⟩]), (⟨1, 0⟩, [⟨.west, ⟨1, 0⟩⟩])]⟩

example : ¬ bothWays.Agree ∧ bothWays.toTree = .error (.revisited ⟨1, 0⟩) :=
  ⟨by decide, rfl⟩

end CostPaths

end Multicast
