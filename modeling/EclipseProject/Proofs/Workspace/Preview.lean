import EclipseProject.Proofs.Path.Spelling
import EclipseProject.Proofs.Staging.Trie
import EclipseProject.Proofs.Workspace.Journal
import EclipseProject.Proofs.Workspace.Keeping

/-!
# The preview and the disk

What a workspace staged stands on the disk as what it was staged as, whatever is done afterwards. A node above an entry
is a directory on the disk, since the path of the entry goes through it. So the tree, which keeps the kind that a node
was made with, is right about every node.
-/

namespace EclipseProject

namespace Disk

variable {d e : Disk} {l k : Location} {ns rest : List Name} {root q : Path} {x : Entry}

/-! ## Nodes above an entry -/

theorem accept_ofSegments (hq : q.Named) (hne : ns ≠ []) (hns : ns.Sublist q.names)
    (ha : accept (root.join q) = .ok ()) : accept (root.join (.ofSegments ns)) = .ok () := by
  have hsegments : ∀ n ∈ ns, n ≠ [] ∧ Path.slash ∉ n := fun n hn => hq.segment (hns.subset hn)
  have hrelative := Path.isAbsolute_ofSegments hne hsegments
  have hbytes := Path.bytes_ofSegments_ne_nil hne hsegments
  have hjoined : (root.join (.ofSegments ns)).bytes ≠ [] :=
    fun h => hbytes ((Path.bytes_join_eq_nil_iff hrelative).mp h).2
  exact accept_of_sublist hjoined (Path.bytes_join_sublist hrelative hq.relative (hq.bytes_sublist hns)) ha

/-- Names lead from where the root leads, whatever stands there. -/
theorem resolve_ofSegments (hne : ns ≠ []) (hns : ∀ n ∈ ns, n ≠ [] ∧ Path.slash ∉ n)
    (ha : accept (root.join (.ofSegments ns)) = .ok ()) (hroot : d.walk (d.start root) root.pieces = .ok l)
    (hw : d.walk l ns = .ok k) : d.resolve (root.join (.ofSegments ns)) = .ok k := by
  have hrelative := Path.isAbsolute_ofSegments hne hns
  refine resolve_ok_iff.mpr ⟨ha, ?_, fun hs => ?_⟩
  · rw [start_join hrelative, Path.pieces_join hrelative, Path.pieces_ofSegments hne hns, walk_append_ok_iff]
    exact ⟨l, hroot, hw⟩
  · rw [Path.endsInSlash_join hrelative (Path.bytes_ofSegments_ne_nil hne hns), Path.endsInSlash_ofSegments hne hns] at hs
    cases hs

/-- The way to what is found goes through directories. -/
theorem find?_along (hq : q.Named) (hne : ns ≠ []) (hnames : q.names = ns ++ rest)
    (hx : d.find? (root.join q) = some x) :
    ∃ y, d.find? (root.join (.ofSegments ns)) = some y ∧ y.isDirectory = (x.isDirectory || !rest.isEmpty) := by
  obtain ⟨k, hr, hk⟩ := find?_eq_some_iff.mp hx
  obtain ⟨ha, hw, _⟩ := resolve_ok_iff.mp hr
  rw [start_join hq.relative, Path.pieces_join hq.relative, walk_append_ok_iff] at hw
  obtain ⟨r, hroot, hw⟩ := hw
  -- without its dots the rest of the way is the names
  replace hw := walk_filter_dot hw
  rw [← hq.names_eq, hnames, walk_append_ok_iff] at hw
  obtain ⟨m, hm, hrest⟩ := hw
  have hns : ns.Sublist q.names := hnames ▸ List.sublist_append_left ..
  have hmeets : d.resolve (root.join (.ofSegments ns)) = .ok m :=
    resolve_ofSegments hne (fun n hn => hq.segment (hns.subset hn)) (accept_ofSegments hq hne hns ha) hroot hm
  cases rest with
  | nil =>
    cases hrest
    exact ⟨x, find?_eq_some_iff.mpr ⟨k, hmeets, hk⟩, by simp⟩
  | cons n rest =>
    obtain ⟨_, hs, _⟩ := walk_cons_ok_iff.mp hrest
    exact ⟨.directory, find?_eq_some_iff.mpr ⟨m, hmeets, (step_ok_iff.mp hs).1⟩, by simp [Entry.isDirectory]⟩

/-! ## Kinds -/

/-- The path leads to something of that kind. -/
def Has (d : Disk) (p : Path) : Staging.Kind → Prop
  | .directory => d.isDirectory p = true
  | .file => d.isFile p = true

theorem has_iff {p : Path} {kind : Staging.Kind} (hx : d.find? p = some x) :
    d.Has p kind ↔ (kind = .directory ↔ x.isDirectory = true) := by
  cases kind <;> cases x <;> simp [Has, isDirectory, isFile, hx, Entry.isDirectory]

end Disk

namespace Workspace

open Staging (Tree)

variable {w w' : Workspace} {s s' : Session} {d d' : Disk} {e : Staging.Entry} {es : List Staging.Entry} {f : FileError}

/-! ## Staged entries on the disk -/

/-- Each staged entry is found on the disk, as a file or as a directory. -/
def Stands (w : Workspace) (d : Disk) : Prop := ∀ e ∈ w.staged.entries, (w.root.join e.destination).bytes ≠ [] →
  ∃ x, d.find? (w.root.join e.destination) = some x ∧ x.isDirectory = e.content.isNone

theorem stands_of_keeps (h : w.Stands d) (hk : Disk.Keeps d d') : w.Stands d' := by
  intro e he hne
  obtain ⟨x, hx, hkind⟩ := h e he hne
  obtain ⟨y, hy, hyx⟩ := Disk.find?_of_keeps hk hx
  exact ⟨y, hy, hyx.trans hkind⟩

section
variable (hw : w.dryRun = false) (h : w.Stands s.disk)
include hw h

theorem stands_of_place_ok (hp : (w.place e).on s = ⟨.ok (), w', s'⟩) : w'.Stands s'.disk := by
  have hdisk := disk_of_place_ok hw hp
  have hold := stands_of_keeps h (Disk.keeps_place hdisk)
  rw [eq_of_place_ok hp]
  intro e' he' hne
  obtain he' | he' := List.mem_append.mp he'
  · exact hold e' he' hne
  · obtain rfl := List.mem_singleton.mp he'
    exact Disk.find?_of_place hne hdisk

theorem stands_of_place_error (hp : (w.place e).on s = ⟨.error f, w', s'⟩) : w.Stands s'.disk := by
  obtain ⟨cause, hdisk⟩ := disk_of_place_error hw hp
  exact stands_of_keeps h (Disk.keeps_place hdisk)

end

theorem stands_placeEach (es : List Staging.Entry) (hw : w.dryRun = false) (h : w.Stands s.disk) :
    (w.placeEach s es).workspace.Stands (w.placeEach s es).session.disk := by
  induction w, s, es using placing_induction with
  | nil w s => exact h
  | ok w s e es w' s' hp ih =>
    rw [placeEach_cons_ok hp]
    exact ih ((fixed_of_place hp).1.trans hw) (stands_of_place_ok hw h hp)
  | error w s e es f s' hp ih =>
    rw [placeEach_cons_error hp]
    exact ih hw (stands_of_place_error hw h hp)

/-! ## The nodes of the tree -/

/-- The path below the root that the names of a node spell. -/
def nodePath (p : List String) : Path := .ofSegments (p.map Utf8.encode)

variable {p : List String}

theorem map_encode_segments (hn : e.destination.Named) : e.segments.map Utf8.encode = e.destination.names := by
  rw [Staging.Entry.segments, List.map_map]
  exact (List.map_congr_left fun n h => hn.encode_decode h).trans (List.map_id _)

/-- What an entry stands for is a directory wherever the entry only passes through. -/
theorem find?_nodePath (h : w.Stands d) (he : e ∈ w.staged.entries) (hn : e.destination.Named) (hp : p ≠ [])
    (hbelow : p <+: e.segments) : ∃ y, d.find? (w.root.join (nodePath p)) = some y ∧
      (y.isDirectory = true ↔ e.segments ≠ p ∨ e.content.isNone = true) := by
  obtain ⟨rest, hrest⟩ := hbelow
  have hnames : e.destination.names = p.map Utf8.encode ++ rest.map Utf8.encode := by
    rw [← List.map_append, hrest, map_encode_segments hn]
  have hne : p.map Utf8.encode ≠ [] := by simpa using hp
  have hbytes : (w.root.join e.destination).bytes ≠ [] := fun hb =>
    hn.bytes_ne_nil (by simp [hnames, hp]) ((Path.bytes_join_eq_nil_iff hn.relative).mp hb).2
  obtain ⟨x, hx, hkind⟩ := h e he hbytes
  obtain ⟨y, hy, hdirectory⟩ := Disk.find?_along hn hne hnames hx
  refine ⟨y, hy, ?_⟩
  have hwhole : e.segments = p ↔ rest = [] := by rw [← hrest]; simp
  rw [hdirectory, hkind, Ne, hwhole]
  cases rest <;> simp

section
variable (h : w.Stands d) (hn : ∀ e ∈ w.staged.entries, e.destination.Named)
include h hn

/-- The first entry on or below a node decides its kind, and the disk agrees with that entry. -/
theorem has_node {x : Tree} (hp : p ≠ []) (hx : (p, x) ∈ (Tree.ofRecord w.staged w.root).nodes) :
    d.Has (w.root.join (nodePath p)) x.kind := by
  have htrie := Staging.isTrie_of_represents (Staging.represents_ofRecord w.staged w.root)
  obtain ⟨e, he, hbelow⟩ := (htrie.paths p hp).mp (Tree.mem_paths.mpr ⟨x, hx⟩)
  obtain ⟨first, hfirst⟩ : ∃ first, w.staged.first? p = some first :=
    Option.isSome_iff_exists.mp (List.find?_isSome.mpr ⟨e, he, by simpa using hbelow⟩)
  have hmem := List.mem_of_find?_eq_some hfirst
  have hunder : p <+: first.segments := by simpa using List.find?_some hfirst
  obtain ⟨y, hy, hdirectory⟩ := find?_nodePath h hmem (hn first hmem) hp hunder
  have hfile : x.kind = .file ↔ first.segments = p ∧ first.isFile = true := by
    rw [htrie.kinds p x hp hx, hfirst]
    simp
  have hkind : x.kind = .directory ↔ ¬ x.kind = .file := by cases x.kind <;> simp
  rw [Disk.has_iff hy, hdirectory, hkind, hfile, not_and_or, Staging.Entry.isFile]
  simp

theorem kind_eq_of_mem_nodes {x : Tree} (he : e ∈ w.staged.entries) (hp : e.segments ≠ [])
    (hx : (e.segments, x) ∈ (Tree.ofRecord w.staged w.root).nodes) : x.kind = e.kind := by
  have hnode := has_node h hn hp hx
  obtain ⟨y, hy, hdirectory⟩ := find?_nodePath h he (hn e he) hp List.prefix_rfl
  rw [Disk.has_iff hy, hdirectory] at hnode
  have hfile : e.kind = .file ↔ x.kind = .file := by
    rw [Staging.Entry.kind_eq_file_iff, Staging.Entry.isFile]
    cases hk : x.kind <;> cases hc : e.content <;> simp_all
  cases hk : x.kind <;> cases hk' : e.kind <;> simp_all

end

/-- **The preview agrees with the disk.** After calls with paths of names, some of which may have failed, each node is on
the disk what it is in the tree, and each call that succeeded has its node. -/
theorem preview_agrees (root : Path) (s : Session) (es : List Staging.Entry) (hn : ∀ e ∈ es, e.destination.Named) :
    let used := (ofRoot root false).placeEach s es
    let tree := Tree.ofRecord used.workspace.staged used.workspace.root
    (∀ p x, p ≠ [] → (p, x) ∈ tree.nodes → used.session.disk.Has (root.join (nodePath p)) x.kind) ∧
    ∀ e, (e, .ok ()) ∈ used.answers → e.destination.components ≠ [] →
      ∃ x, (e.segments, x) ∈ tree.nodes ∧ x.kind = e.kind := by
  intro used tree
  have hused : used.workspace = { ofRoot root false with staged := ⟨[] ++ used.succeeded⟩ } :=
    workspace_placeEach es (ofRoot root false) s
  have hroot : used.workspace.root = root := by rw [hused]; rfl
  have hstaged : used.workspace.staged.entries = used.succeeded := by rw [hused, List.nil_append]
  have hnamed : ∀ e ∈ used.workspace.staged.entries, e.destination.Named := fun e he => by
    rw [hstaged, Usage.mem_succeeded] at he
    exact hn e (entries_placeEach es (ofRoot root false) s ▸ List.mem_map_of_mem he)
  have hstands : used.workspace.Stands used.session.disk :=
    stands_placeEach es rfl fun e he => by cases he
  refine ⟨fun p x hp hx => ?_, fun e he hsome => ?_⟩
  · rw [← hroot]
    exact has_node hstands hnamed hp hx
  · have hmem : e ∈ used.workspace.staged.entries := by rwa [hstaged, Usage.mem_succeeded]
    have hsegments : e.segments ≠ [] := by
      rw [Staging.Entry.segments, Ne, List.map_eq_nil_iff]
      exact (hnamed e hmem).names_ne_nil hsome
    have htrie := Staging.isTrie_of_represents (Staging.represents_ofRecord used.workspace.staged used.workspace.root)
    obtain ⟨x, hx⟩ := Tree.mem_paths.mp ((htrie.paths _ hsegments).mpr ⟨e, hmem, List.prefix_rfl⟩)
    exact ⟨x, hx, kind_eq_of_mem_nodes hstands hnamed hmem hsegments hx⟩

/-- The file is refused before its directory is there and after it became a file itself. -/
theorem preview_agrees_despite_refusals :
    let early := Staging.Entry.mk (.ofString "a/b") (some "1")
    let directory := Staging.Entry.mk (.ofString "a") none
    let file := Staging.Entry.mk (.ofString "a//./é") (some "2")
    let through := Staging.Entry.mk (.ofString "a/é/b/c") none
    let calls := [early, directory, file, through]
    let used := (ofRoot (.ofString "/") false).placeEach (.ofDisk .empty) calls
    let tree := Tree.ofRecord used.workspace.staged used.workspace.root
    used.answers.map (·.2.isOk) = [false, true, true, false] ∧ tree.paths = [[], ["a"], ["a", "é"]] ∧
      ∀ p x, p ≠ [] → (p, x) ∈ tree.nodes → used.session.disk.Has ((Path.ofString "/").join (nodePath p)) x.kind := by
  intro early directory file through calls used tree
  have hanswers : used.answers.map (·.2.isOk) = [false, true, true, false] := by
    simp only [used, calls, early, directory, file, through]
    decide +kernel
  have hpaths : tree.paths = [[], ["a"], ["a", "é"]] := by
    simp only [tree, used, calls, early, directory, file, through]
    decide +kernel
  have hnamed : ∀ e ∈ calls, e.destination.Named := by
    simp only [calls, early, directory, file, through]
    decide +kernel
  exact ⟨hanswers, hpaths, (preview_agrees (.ofString "/") (.ofDisk .empty) calls hnamed).1⟩

end Workspace

end EclipseProject
