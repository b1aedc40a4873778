import Multicast.Proofs.Geometry.Words
import Multicast.Proofs.Pipeline.Nearest

/-!
# `Multicast.Proofs.Pipeline.Complete`: when a net gets its tables

A tree is grown as if nothing were dead, so its repair has to find a way to every
working chip it passes, also to one that no sink needs. `Fabric.Connects` says that
there are such ways. A net on the grid with a working source gets its tables exactly
then (`Machine.routeNets_single`): the repair has no other reason to fail
(`Net.Grown.repair_ok_iff`), and a repaired tree has at most one entry on a chip, so
there is nothing to disagree about in empty tables.

That every sink can be reached is not enough (`relay_decides`).

Trees are grown along vectors, and `Machine.routeNets_single` asks for a machine with sides
below `2 ^ 31`. There words of 32 bits hold every vector between two chips; on a wider mesh a
vector that is cut down leads a tree off the mesh, whatever works on it.
-/

set_option autoImplicit false

namespace Multicast

/-- Paths over working links lead from the source of a net to every sink, and to every working
chip that a tree passes. -/
structure Fabric.Connects (f : Fabric) (net : Net) (t : RouteTree) : Prop where
  sinks : ∀ e ∈ net.sinks, f.Joined net.source.chip e.chip
  relays : ∀ n ∈ t.reached, ∀ c, t.chip? n = some c → f.isChip c = true →
    f.Joined net.source.chip c

namespace Net.Grown

variable {f : Fabric} {net : Net} {g : Growth} {n : NodeId} {c : Chip} {e : Endpoint}

/-- A sink hangs off a node on its chip. -/
theorem exists_sink (h : net.Grown g) (he : e ∈ net.sinks) :
    ∃ n, g.tree.Below g.tree.root n ∧ g.tree.chip? n = some e.chip ∧ g.tree.endings n ≠ [] := by
  obtain ⟨n, hn, hc, hmem⟩ := h.sound.isProper.mem_terminals.1
    ((h.sound.mem_terminals h.sinks (x := ⟨e.chip, some e.route, e⟩)).2 ⟨he, rfl, rfl⟩)
  exact ⟨n, hn, hc, List.ne_nil_of_mem hmem⟩

/-- What hangs off a node is a sink on its chip. -/
theorem sink_of_endings (h : net.Grown g) (hn : g.tree.Below g.tree.root n)
    (hc : g.tree.chip? n = some c) (hne : g.tree.endings n ≠ []) : ∃ e ∈ net.sinks, e.chip = c := by
  obtain ⟨⟨route, e⟩, hmem⟩ := List.exists_mem_of_ne_nil _ hne
  obtain ⟨he, hec, -⟩ := (h.sound.mem_terminals h.sinks (x := ⟨c, route, e⟩)).1
    (h.sound.isProper.mem_terminals.2 ⟨n, hn, hc, hmem⟩)
  exact ⟨e, he, hec.symm⟩

/-- The repair of a grown tree succeeds when everything in it can be reached; otherwise it names a
chip that cannot. -/
theorem repair_ok_iff (h : net.Grown g) (hsource : f.isChip net.source.chip = true)
    (hends : f.Ends g.tree net.source.chip (f.repair g.tree)) :
    ((∃ r, f.repair g.tree = .ok r) ↔ f.Connects net g.tree) ∧
      ∀ error, f.repair g.tree = .error error → ∃ a b, error = .noLivePath a b ∧
        (¬ f.Joined net.source.chip a ∨ ¬ f.Joined net.source.chip b) := by
  have hreached := fun n => h.sound.isProper.mem_reached (n := n)
  generalize f.repair g.tree = result at hends
  -- Each way the repair may end decides whether everything can be reached.
  cases hends with
  | dead hdead => simp [hsource] at hdead
  | stranded hstranded =>
      obtain ⟨n, c, hn, hc, hdead, hne, rfl⟩ := hstranded
      obtain ⟨e, he, rfl⟩ := h.sink_of_endings hn hc hne
      -- The sink is on a dead chip, and working links lead to working chips only.
      have hno : ¬ f.Joined net.source.chip e.chip := fun hjoined => by
        simp [hjoined.isChip hsource] at hdead
      exact ⟨⟨by simp, fun hconnects => absurd (hconnects.sinks e he) hno⟩, fun error heq =>
        ⟨_, _, (Except.error.inj heq).symm, .inr hno⟩⟩
  | cutOff hn hc hlive hno =>
      exact ⟨⟨by simp, fun hconnects =>
        absurd (hconnects.relays _ ((hreached _).2 hn) _ hc hlive) hno⟩, fun error heq =>
        ⟨_, _, (Except.error.inj heq).symm, .inl hno⟩⟩
  | repaired _ hjoined hdead _ =>
      refine ⟨⟨fun _ => ⟨fun e he => ?_, fun n hn c hc hl => ?_⟩, fun _ => ⟨_, rfl⟩⟩, by simp⟩
      · -- Nothing hangs off a node on a dead chip, so the chip of a sink works.
        obtain ⟨n, hn, hc, hne⟩ := h.exists_sink he
        have hlive : f.isChip e.chip = true := by
          by_contra hl
          exact hne (hdead n _ hn hc (by simpa using hl))
        exact hjoined n _ hn hc hlive
      · exact hjoined n c ((hreached n).1 hn) hc hl

end Net.Grown

/-- A net on the grid with a working source gets its tree, and how its repair may end. -/
theorem Fabric.routeNet_ends {f : Fabric} {net : Net}
    (hon : ∀ c ∈ net.chips, f.contains c = true) (hsource : f.isChip net.source.chip = true)
    (radius : Nat) : ∃ g, f.spreadNet net radius = .ok g ∧ net.Grown g ∧
      Ends f g.tree net.source.chip (f.repair g.tree) := by
  obtain ⟨g, hg, hgrown⟩ := spreadNet_spec hon hsource radius
  exact ⟨g, hg, hgrown, repair_ends hgrown.sound.isProper hgrown.root_chip⟩

namespace Run

/-- A proper tree can be recorded in empty tables. -/
theorem record_start {n : RoutedNet} (h : n.tree.IsProper) : ∃ r, Run.start.record n = .ok r := by
  obtain ⟨r, hr, -⟩ := record_vacant (r := .start) h fun c => Tables.get?_empty ⟨c, _⟩
  exact ⟨r, hr⟩

end Run

namespace Machine

variable {ν : Type} [Quantity ν] {m : Machine ν} {o : Options ν} {net : Net}

/-- A run with a single net gives tables if the net gets its tree. -/
theorem routeNets_single_ok (halgorithm : o.algorithm = .nearest) (hgo : o.cancelled = false) :
    (∃ tables, (m.routeNets [net] o).result = .ok tables) ↔
      ∃ n, m.toFabric.routeNet net o.radius = .ok n := by
  have hcheck : o.checkCancelled = .ok () := by simp [Options.checkCancelled, hgo]
  simp only [routeNets, halgorithm, Run.finish_eq_ok, Run.nearest_cons_eq_ok]
  constructor
  · rintro ⟨tables, r, ⟨-, n, next, hn, -⟩, -⟩
    exact ⟨n, hn⟩
  · rintro ⟨n, hn⟩
    obtain ⟨g, r, -, hsound, rfl⟩ := Fabric.sound_of_routeNet hn
    obtain ⟨next, hnext⟩ := Run.record_start (n := ⟨net, r.tree, r.report⟩) hsound.proper
    exact ⟨_, next, ⟨hcheck, _, next, hn, hnext, rfl⟩, rfl⟩

/-- A run with a single net fails as the routing of the net does. -/
theorem routeNets_single_error (halgorithm : o.algorithm = .nearest) (hgo : o.cancelled = false)
    {error : RouteError} (h : (m.routeNets [net] o).result = .error error) :
    m.toFabric.routeNet net o.radius = .error error := by
  have hcheck : o.checkCancelled = .ok () := by simp [Options.checkCancelled, hgo]
  cases hn : m.toFabric.routeNet net o.radius with
  | ok n =>
      -- A net routed would have given tables.
      obtain ⟨tables, htables⟩ := (routeNets_single_ok halgorithm hgo).2 ⟨n, hn⟩
      rw [htables] at h
      contradiction
  | error e =>
      have hrun : Run.nearest m.toFabric o .start [net] = .error ⟨e, .empty⟩ := by
        rw [Run.nearest, hcheck, hn]
        rfl
      rw [routeNets, halgorithm] at h
      simp only [hrun] at h
      exact congrArg Except.error (Except.error.inj h)

/-- On a machine with sides below `2 ^ 31`, where words of 32 bits hold the vectors that a tree grows
along: a net on the grid with a working source gets its tables if every sink, and every working
chip that its tree passes before the repair, can be reached from the source; otherwise the error
names a chip that cannot. -/
theorem routeNets_single (m : Machine ν) (hsides : m.IsNarrow) (o : Options ν) (net : Net)
    (halgorithm : o.algorithm = .nearest) (hgo : o.cancelled = false)
    (hon : ∀ c ∈ net.chips, m.contains c = true) (hsource : m.isChip net.source.chip = true) :
    m.FitsWords ∧ ∃ g, m.toFabric.spreadNet net o.radius = .ok g ∧
      ((∃ tables, (m.routeNets [net] o).result = .ok tables) ↔
        m.toFabric.Connects net g.tree) ∧
      ∀ error, (m.routeNets [net] o).result = .error error → ∃ a b, error = .noLivePath a b ∧
        (¬ m.Joined net.source.chip a ∨ ¬ m.Joined net.source.chip b) := by
  obtain ⟨g, hg, hgrown, hends⟩ := Fabric.routeNet_ends hon hsource o.radius
  obtain ⟨hok, herror⟩ := hgrown.repair_ok_iff hsource hends
  refine ⟨hsides.fitsWords, g, hg, ?_, fun error h => ?_⟩
  · rw [routeNets_single_ok halgorithm hgo, ← hok]
    constructor
    · rintro ⟨n, hn⟩
      obtain ⟨g', r, hg', hr, -⟩ := Fabric.routeNet_eq_ok.1 hn
      obtain rfl := Except.ok.inj (hg.symm.trans hg')
      exact ⟨r, hr⟩
    · rintro ⟨r, hr⟩
      exact ⟨_, Fabric.routeNet_eq_ok.2 ⟨g, r, hg, hr, rfl⟩⟩
  · have hn := routeNets_single_error halgorithm hgo h
    refine herror error ?_
    rw [Fabric.routeNet, hg] at hn
    cases hr : m.toFabric.repair g.tree with
    | error e => simpa [bind, Except.bind, hr] using hn
    | ok r => simp [bind, Except.bind, pure, Except.pure, hr] at hn

/-- A mesh with a working chip all of whose links are dead. -/
def islanded : Machine Float :=
  .standard (Direction.all.foldl (fun f d => f.killLink ⟨1, 0⟩ d)
    (.intact { width := 3, height := 2, wraps := false }))

/-- A net whose tree is grown through the chip without links. -/
def islandNet : Net :=
  { partition := ⟨0⟩, source := .core ⟨0, 0⟩ 1, sinks := [.core ⟨2, 0⟩ 1] }

/-- The route to the sink in the same row is grown over the chip without links, which is alive and
so is not left out by the repair. It has no way to it and gives up. -/
theorem islanded_fails : (islanded.routeNets [islandNet] .standard).result =
    .error (.noLivePath ⟨1, 0⟩ ⟨0, 0⟩) := by
  decide +kernel

/-- So the repair of its tree needs a path that is not there. -/
theorem islanded_not_connects : ∃ g,
    islanded.toFabric.spreadNet islandNet defaultRadius = .ok g ∧
      ¬ islanded.toFabric.Connects islandNet g.tree := by
  obtain ⟨-, g, hg, hiff, -⟩ := routeNets_single islanded (by decide) .standard islandNet rfl rfl
    (by decide +kernel) (by decide +kernel)
  refine ⟨g, hg, fun h => ?_⟩
  obtain ⟨tables, htables⟩ := hiff.2 h
  rw [islanded_fails] at htables
  contradiction

/-- That every sink can be reached is not enough: a chip that none of them needs decides whether
the net gets its tables. -/
theorem relay_decides : (∀ c ∈ islandNet.chips, islanded.contains c = true) ∧
    islanded.isChip islandNet.source.chip = true ∧
    (∀ e ∈ islandNet.sinks, islanded.Joined islandNet.source.chip e.chip) ∧
    (islanded.routeNets [islandNet] .standard).result =
      .error (.noLivePath ⟨1, 0⟩ ⟨0, 0⟩) := by
  refine ⟨by decide +kernel, by decide +kernel, fun e he => ?_, islanded_fails⟩
  obtain rfl := List.mem_singleton.1 he
  -- The way over the second row.
  have hup : islanded.Linked ⟨0, 0⟩ ⟨1, 1⟩ := ⟨.northEast, by decide +kernel⟩
  have hover : islanded.Linked ⟨1, 1⟩ ⟨2, 1⟩ := ⟨.east, by decide +kernel⟩
  have hdown : islanded.Linked ⟨2, 1⟩ ⟨2, 0⟩ := ⟨.south, by decide +kernel⟩
  exact .head hup (.head hover (.single hdown))

end Machine

end Multicast
