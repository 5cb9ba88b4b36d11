import EclipseProject.Proofs.Disk.Adding
import EclipseProject.Proofs.Path.Parents

/-!
# Making the directories on the way down

From a directory on, a path of names and dots leads down its names. If no file is on the way, the path leads on until
a name is missing, and a directory can be made when only the last name is. Otherwise the parents are made first, and by
induction on the parents all of them can be made. Only a dot at the end must be there already: there is no name to make.
-/

namespace EclipseProject.Disk

open EclipseProject.Path (dot dotDot undotted undotted_cons undotted_concat undotted_append mem_undotted undotted_cons_dot)

variable {d e : Disk} {l k r : Location} {n : Name} {ns ms base rest : List Name} {p q : Path}

/-- No name leads up and none is too long. -/
def Fits (ns : List Name) : Prop := ∀ n ∈ ns, n ≠ dotDot ∧ n.length ≤ maxName

theorem Fits.of_subset (h : Fits ns) (hms : ms ⊆ ns) : Fits ms := fun n hn => h n (hms hn)

theorem Fits.plain (h : Fits ns) : ∀ n ∈ undotted ns, Path.Plain n := fun n hn =>
  ⟨(mem_undotted.mp hn).2, (h n (mem_undotted.mp hn).1).1⟩

/-! ## What is there below a directory -/

/-- On the way along the names everything is a directory. -/
def There (d : Disk) (l : Location) (ns : List Name) : Prop := ∀ ms, ms <+: ns → d.entry? (l ++ ms) = some .directory

/-- On the way along the names no file is met. -/
def Free (d : Disk) (l : Location) (ns : List Name) : Prop :=
  ∀ ms, ms <+: ns → ∀ x, d.entry? (l ++ ms) = some x → x = .directory

theorem there_cons : d.There l (n :: ns) ↔ d.entry? l = some .directory ∧ d.There (l ++ [n]) ns := by
  constructor
  · intro h
    refine ⟨by simpa using h [] List.nil_prefix, fun ms hms => ?_⟩
    rw [List.append_assoc]
    exact h (n :: ms) (by simpa using hms)
  · rintro ⟨hl, h⟩ ms hms
    rcases List.prefix_cons_iff.mp hms with rfl | ⟨ks, rfl, hks⟩
    · simpa using hl
    · simpa using h ks hks

theorem There.mono (h : d.There l ns) (hms : ms <+: ns) : d.There l ms := fun ks hks => h ks (hks.trans hms)

theorem There.whole (h : d.There l ns) : d.entry? (l ++ ns) = some .directory := h ns List.prefix_rfl

theorem prefix_dropLast_of_ne (h : ms <+: ns) (hne : ms ≠ ns) : ms <+: ns.dropLast := by
  obtain ⟨more, rfl⟩ := h
  have hmore : more ≠ [] := fun hnil => hne (by simp [hnil])
  rw [List.dropLast_append_of_ne_nil hmore]
  exact List.prefix_append ..

theorem there_of_dropLast (h : d.There l ns.dropLast) (hwhole : d.entry? (l ++ ns) = some .directory) :
    d.There l ns := by
  intro ms hms
  by_cases hall : ms = ns
  · rw [hall]
    exact hwhole
  · exact h ms (prefix_dropLast_of_ne hms hall)

theorem there_nil (h : d.entry? l = some .directory) : d.There l [] := by
  intro ms hms
  rw [List.prefix_nil.mp hms, List.append_nil]
  exact h

theorem Free.tail (h : d.Free l (n :: ns)) : d.Free (l ++ [n]) ns := by
  intro ms hms x hx
  rw [List.append_assoc] at hx
  exact h (n :: ms) (by simpa using hms) x hx

theorem Free.mono (h : d.Free l ns) (hms : ms <+: ns) : d.Free l ms := fun ks hks => h ks (hks.trans hms)

/-! ## Walking down -/

theorem step_dot (hl : d.entry? l = some .directory) : d.step l dot = .ok l :=
  step_ok_iff.mpr ⟨hl, Or.inl ⟨rfl, rfl⟩⟩

theorem step_down (hl : d.entry? l = some .directory) (hn : Path.Plain n) (hlength : n.length ≤ maxName)
    (hdirectory : d.entry? (l ++ [n]) = some .directory) : d.step l n = .ok (l ++ [n]) :=
  step_ok_iff.mpr ⟨hl, Or.inr (Or.inr ⟨hn, hlength, by rw [hdirectory]; rfl, rfl⟩)⟩

theorem walk_of_there (hfits : Fits ns) (h : d.There l (undotted ns)) : d.walk l ns = .ok (l ++ undotted ns) := by
  induction ns generalizing l with
  | nil => simp [walk, pure, Except.pure]
  | cons n ns ih =>
    have hrest : Fits ns := hfits.of_subset (List.subset_cons_self ..)
    by_cases hn : n = dot
    · rw [hn, undotted_cons_dot] at h ⊢
      have hl : d.entry? l = some .directory := by simpa using h [] List.nil_prefix
      exact walk_cons_ok_iff.mpr ⟨l, step_dot hl, ih hrest h⟩
    · rw [undotted_cons hn] at h ⊢
      obtain ⟨hl, htail⟩ := there_cons.mp h
      obtain ⟨hdotDot, hlength⟩ := hfits n (List.mem_cons_self ..)
      have hdirectory : d.entry? (l ++ [n]) = some .directory := by simpa using htail [] List.nil_prefix
      refine walk_cons_ok_iff.mpr ⟨l ++ [n], step_down hl ⟨hn, hdotDot⟩ hlength hdirectory, ?_⟩
      rw [ih hrest htail, List.append_assoc, List.singleton_append]

theorem step_of_missing (hl : d.entry? l = some .directory) (hn : Path.Plain n) (hlength : n.length ≤ maxName)
    (hnone : d.entry? (l ++ [n]) = none) : d.step l n = .error .notFound := by
  have hd : d.requireDirectory l = .ok () := requireDirectory_ok_iff.mpr hl
  simp [step, hd, hn.1, hn.2, Nat.not_lt.mpr hlength, hnone, bind, Except.bind, throw, throwThe, MonadExceptOf.throw]

/-- The first name that is missing ends the walk. -/
theorem walk_of_gap (hfits : Fits ns) (hl : d.entry? l = some .directory) (hfree : d.Free l (undotted ns))
    (hgap : ¬ d.There l (undotted ns)) : d.walk l ns = .error .notFound := by
  induction ns generalizing l with
  | nil => exact absurd (there_nil hl) hgap
  | cons n ns ih =>
    have hrest : Fits ns := hfits.of_subset (List.subset_cons_self ..)
    rw [walk, List.foldlM_cons]
    by_cases hn : n = dot
    · rw [hn, undotted_cons_dot] at hfree hgap
      rw [hn, step_dot hl]
      exact ih hrest hl hfree hgap
    · rw [undotted_cons hn] at hfree hgap
      obtain ⟨hdotDot, hlength⟩ := hfits n (List.mem_cons_self ..)
      cases hx : d.entry? (l ++ [n]) with
      | none =>
        rw [step_of_missing hl ⟨hn, hdotDot⟩ hlength hx]
        rfl
      | some x =>
        rw [hfree [n] (by simp) x hx] at hx
        rw [step_down hl ⟨hn, hdotDot⟩ hlength hx]
        exact ih hrest hx hfree.tail fun htail => hgap (there_cons.mpr ⟨hl, htail⟩)

/-! ## Paths on the way down -/

/-- The path leads to a directory first, and from there down names that fit, where no file is. -/
structure Descends (d : Disk) (p : Path) (r : Location) (rest : List Name) : Prop where
  accepted : accept p = .ok ()
  way : ∃ base, p.pieces = base ++ rest ∧ d.walk (d.start p) base = .ok r
  directory : d.entry? r = some .directory
  fits : Fits rest
  free : d.Free r (undotted rest)

namespace Descends

theorem of_adds {P : Path → Prop} (h : d.Descends p r rest) (hadds : Adds P d e) : e.Descends p r rest := by
  have hext := hadds.keeps.extending
  obtain ⟨base, hbase, hwalk⟩ := h.way
  refine ⟨h.accepted, ⟨base, hbase, ?_⟩, hadds.stays h.directory, h.fits, fun ms hms x hx => ?_⟩
  · rw [start_of_extends hext]
    exact walk_of_extends hext hwalk
  · by_cases hsame : e.entry? (r ++ ms) = d.entry? (r ++ ms)
    · exact h.free ms hms x (hsame ▸ hx)
    · exact Option.some.inj (hx.symm.trans (hadds.new _ hsame).2.1)

variable (h : d.Descends p r rest)
include h

theorem walk_init {init : List Name} (hinit : rest = init ++ ms) (hthere : d.There r (undotted init)) :
    ∃ base, p.pieces = base ++ init ++ ms ∧ d.walk (d.start p) (base ++ init) = .ok (r ++ undotted init) := by
  obtain ⟨base, hbase, hwalk⟩ := h.way
  refine ⟨base, by rw [hbase, hinit, List.append_assoc], walk_append_ok_iff.mpr ⟨r, hwalk, ?_⟩⟩
  exact walk_of_there (h.fits.of_subset (by simp [hinit])) hthere

theorem leadsTo (hthere : d.There r (undotted rest)) : d.LeadsTo p (r ++ undotted rest) := by
  obtain ⟨base, hbase, hwalk⟩ := h.walk_init (List.append_nil _).symm hthere
  rw [List.append_nil] at hbase
  exact ⟨resolve_ok_iff.mpr ⟨h.accepted, hbase ▸ hwalk, fun _ => hthere.whole⟩, hthere.whole⟩

theorem walk_gap {init : List Name} (hinit : rest = init ++ ms) (hgap : ¬ d.There r (undotted init)) :
    ∃ base, p.pieces = base ++ init ++ ms ∧ d.walk (d.start p) (base ++ init) = .error .notFound := by
  obtain ⟨base, hbase, hwalk⟩ := h.way
  refine ⟨base, by rw [hbase, hinit, List.append_assoc], ?_⟩
  have hfree : d.Free r (undotted init) := h.free.mono (by simp [hinit])
  have hrest : d.walk r init = .error .notFound := walk_of_gap (h.fits.of_subset (by simp [hinit])) h.directory hfree hgap
  rw [walk] at hwalk hrest
  rw [walk, List.foldlM_append, hwalk]
  exact hrest

theorem there_of_leadsTo (hk : d.LeadsTo p k) : d.There r (undotted rest) := by
  by_cases hthere : d.There r (undotted rest)
  · exact hthere
  · obtain ⟨base, hbase, hwalk⟩ := h.walk_gap (List.append_nil _).symm hthere
    rw [List.append_nil] at hbase
    have hresolved := (resolve_ok_iff.mp hk.1).2.1
    rw [hbase, hwalk] at hresolved
    cases hresolved

end Descends

/-! ## Settling on the way down -/

/-- There is a name to make at the end, or nothing is left to make. -/
def Ends (d : Disk) (r : Location) (rest : List Name) : Prop :=
  rest.getLast? ≠ some dot ∨ d.entry? (r ++ undotted rest) = some .directory

theorem settleDirectory_of_leadsTo (h : d.LeadsTo p k) : ∃ e, d.settleDirectory p = (.ok (), e) := by
  unfold settleDirectory
  split
  · exact ⟨_, rfl⟩
  · rw [isDirectory_iff.mpr ⟨k, h⟩]
    exact ⟨d, rfl⟩

namespace Descends

variable (h : d.Descends p r rest)
include h

theorem settle (hends : d.Ends r rest) (hthere : d.There r (undotted rest).dropLast) :
    ∃ e, d.settleDirectory p = (.ok (), e) := by
  obtain hlast | hwhole := hends
  · rcases List.eq_nil_or_concat rest with rfl | ⟨init, m, rfl⟩
    · exact settleDirectory_of_leadsTo (h.leadsTo (there_nil h.directory))
    · rw [List.concat_eq_append] at *
      have hm : m ≠ dot := by simpa using hlast
      obtain ⟨hdotDot, hlength⟩ := h.fits m (by simp)
      have hnames : undotted (init ++ [m]) = undotted init ++ [m] := undotted_concat hm
      rw [hnames, List.dropLast_concat] at hthere
      obtain ⟨base, hbase, hwalk⟩ := h.walk_init rfl hthere
      have hparent : d.resolveParent p = .ok (r ++ undotted init) := by
        rw [resolveParent_ok_iff, hbase, List.dropLast_concat]
        exact ⟨h.accepted, hwalk, hthere.whole⟩
      have hname : lastName? p = some m := lastName?_eq_some_iff.mpr ⟨by simp [hbase], hm, hdotDot⟩
      rw [settleDirectory_of_parent hparent hname hlength]
      cases hx : d.entry? (r ++ undotted init ++ [m]) with
      | none => exact ⟨_, rfl⟩
      | some x =>
        rw [List.append_assoc, ← hnames] at hx
        rw [h.free _ List.prefix_rfl x hx]
        exact ⟨d, rfl⟩
  · exact settleDirectory_of_leadsTo (h.leadsTo (there_of_dropLast hthere hwhole))

/-- If not only the last name is missing, the directory is not made. -/
theorem settle_gap (hgap : ¬ d.There r (undotted rest).dropLast) : d.settleDirectory p = (.error .notFound, d) := by
  rcases List.eq_nil_or_concat rest with rfl | ⟨init, m, rfl⟩
  · exact absurd (there_nil h.directory) hgap
  · rw [List.concat_eq_append] at *
    have hparents : (undotted (init ++ [m])).dropLast <+: undotted init := by
      by_cases hm : m = dot
      · simp [hm, List.dropLast_prefix]
      · simp [undotted_concat hm]
    obtain ⟨base, hbase, hwalk⟩ := h.walk_gap rfl fun hthere => hgap (hthere.mono hparents)
    have hparent : d.resolveParent p = .error .notFound := by
      rw [resolveParent, h.accepted, hbase, List.dropLast_concat, hwalk]
      rfl
    have hmake : d.makeDirectory p = .error .notFound := by
      rw [makeDirectory, hparent]
      rfl
    have hmissing : ¬ d.isDirectory p = true := fun hd => by
      obtain ⟨k, hk⟩ := isDirectory_iff.mp hd
      exact hgap ((h.there_of_leadsTo hk).mono (List.dropLast_prefix _))
    simp [settleDirectory, hmake, hmissing]

/-- Then the parent is on the way down as well, with one name less. -/
theorem parent (hgap : ¬ d.There r (undotted rest).dropLast) : ∃ q above, p.parent? = some q ∧ q.Leads p ∧
    d.Descends q r above ∧ undotted above = (undotted rest).dropLast ∧ above.getLast? ≠ some dot := by
  have hlength : 1 < (undotted rest).length := by
    by_contra hle
    have hnil : (undotted rest).dropLast = [] := List.eq_nil_of_length_eq_zero (by rw [List.length_dropLast]; omega)
    exact hgap (hnil ▸ there_nil h.directory)
  obtain ⟨base, hbase, hwalk⟩ := h.way
  cases hq : p.parent? with
  | none =>
    have hnone := congrArg List.length (Path.undotted_of_parent? hq)
    rw [hbase, undotted_append, List.length_append, List.length_nil] at hnone
    omega
  | some q =>
    obtain ⟨above, n, hpieces, habove, hnames, hlast, hbytes⟩ :=
      (Path.parentOf_of_parent? hq).exists_above hbase hlength
    have hleads := Path.leads_of_parent? hq hbytes
    have hdescends : d.Descends q r above := by
      refine ⟨accept_of_sublist hbytes hleads.bytes h.accepted, ⟨base, hpieces, ?_⟩, h.directory, ?_, ?_⟩
      · rw [start, hleads.isAbsolute]
        exact hwalk
      · exact h.fits.of_subset habove.subset
      · exact h.free.mono (by simp [hnames])
    exact ⟨q, above, rfl, hleads, hdescends, by rw [hnames, List.dropLast_concat], hlast⟩

end Descends

/-! ## Making all that is missing -/

theorem there_of_ensureLineage {above : List Name} {k : Nat} (h : d.Descends q r above) (hk : q.bytes.length < k)
    (hq : d.ensureLineage (q.lineageUpTo k) = (.ok (), e)) : e.There r (undotted above) := by
  have hadds := adds_ensureLineage hq
  have hne := (accept_ok_iff.mp h.accepted).2.1
  cases k with
  | zero => cases hk
  | succ k =>
    have hfound : e.isDirectory q = true := beq_iff_eq.mpr (find?_of_ensureLineage hne hq)
    obtain ⟨l, hl⟩ := isDirectory_iff.mp hfound
    exact (h.of_adds hadds).there_of_leadsTo hl

theorem ensureLineage_of_descends {k : Nat} (h : d.Descends p r rest) (hends : d.Ends r rest)
    (hk : p.bytes.length < k) : ∃ e, d.ensureLineage (p.lineageUpTo k) = (.ok (), e) := by
  induction k generalizing p rest with
  | zero => cases hk
  | succ k ih =>
    have hne := (accept_ok_iff.mp h.accepted).2.1
    rw [Path.lineageUpTo, ensureLineage, if_neg hne]
    by_cases hthere : d.There r (undotted rest).dropLast
    · obtain ⟨e, hs⟩ := h.settle hends hthere
      rw [hs]
      exact ⟨e, rfl⟩
    · -- a parent is missing as well: it is shorter, and nothing but its own parents is in its way
      obtain ⟨q, above, hq, hleads, hdescends, hnames, hlast⟩ := h.parent hthere
      have hshorter : q.bytes.length < k := Nat.lt_of_lt_of_le hleads.length_lt (Nat.le_of_lt_succ hk)
      obtain ⟨e, he⟩ := ih hdescends (Or.inl hlast) hshorter
      have hadds := adds_ensureLineage he
      have hparents : e.There r (undotted rest).dropLast := hnames ▸ there_of_ensureLineage hdescends hshorter he
      obtain ⟨f, hs⟩ := (h.of_adds hadds).settle (hends.imp_right hadds.stays) hparents
      refine ⟨f, ?_⟩
      simp [h.settle_gap hthere, hq, he, hs]

/-! ## Where the parents lead -/

/-- A parent leads to what is there or to fewer names down. -/
theorem Descends.location_of_leads (h : d.Descends p r rest) (hq : q.Leads p) (hext : Extends d e) (hl : e.LeadsTo q l) :
    d.entry? l ≠ none ∨ ∃ ms, ms <+: undotted rest ∧ ms ≠ undotted rest ∧ l = r ++ ms := by
  obtain ⟨base, hbase, hwalk⟩ := h.way
  obtain ⟨more, hmore, hname⟩ := hq.pieces
  have hstart : e.start q = d.start p := by rw [start_of_extends hext, start, start, hq.isAbsolute]
  have hled := (resolve_ok_iff.mp hl.1).2.1
  rw [hstart] at hled
  rw [hbase] at hmore
  obtain ⟨down, hdown, hrest⟩ | ⟨up, hup, _⟩ := List.append_eq_append_iff.mp hmore
  · right
    rw [hdown, walk_append_ok_iff] at hled
    obtain ⟨m, hm, hled⟩ := hled
    rw [walk_of_extends hext hwalk] at hm
    cases hm
    have hfits : Fits down := h.fits.of_subset (by simp [hrest])
    refine ⟨undotted down, by simp [hrest], ?_, eq_append_of_walk hfits.plain (walk_filter_dot hled)⟩
    rw [hrest, undotted_append]
    exact fun he => hname (List.self_eq_append_right.mp he)
  · left
    rw [hup, walk_append_ok_iff] at hwalk
    obtain ⟨m, hm, hwalk⟩ := hwalk
    rw [walk_of_extends hext hm] at hled
    cases hled
    rw [directory_of_walk hwalk h.directory]
    simp

/-! ## A directory on the way down -/

section
variable (h : d.Descends p r rest)
include h

theorem there_of_ensureDirectory (hok : d.ensureDirectory p = (.ok (), e)) : e.There r (undotted rest) :=
  there_of_ensureLineage h (Nat.lt_succ_self _) hok

theorem location_of_above (hq : q.Above p) (hext : Extends d e) (hl : e.LeadsTo q l) (hnone : d.entry? l = none) :
    ∃ ms, ms <+: undotted rest ∧ ms ≠ undotted rest ∧ l = r ++ ms :=
  (h.location_of_leads (Path.leads_of_above hq hl.bytes_ne_nil) hext hl).resolve_left (absurd hnone)

/-- What is new is on the way, and the end of it is new only if there is a name to make at the end. -/
theorem new_of_ensureDirectory {o : Except SystemError Unit} (ho : d.ensureDirectory p = (o, e))
    (hnew : e.entry? l ≠ d.entry? l) : ∃ ms, ms <+: undotted rest ∧ l = r ++ ms ∧
      (ms = undotted rest → rest.getLast? ≠ some dot) := by
  have hadds := adds_ensureLineage ho
  have hext := hadds.keeps.extending
  by_cases hlast : rest.getLast? = some dot
  · have hname : lastName? p = none := by
      obtain ⟨base, hbase, _⟩ := h.way
      simp [lastName?, hbase, hlast]
    obtain ⟨hnone, _, q, hq, hl⟩ := (adds_parents ho (Or.inr hname)).new l hnew
    obtain ⟨ms, hms, hne, hlms⟩ := location_of_above h (Path.above_of_mem_parents hq) hext hl hnone
    exact ⟨ms, hms, hlms, fun he => absurd he hne⟩
  · obtain ⟨hnone, _, q, hq, hl⟩ := hadds.new l hnew
    rcases List.mem_cons.mp hq with rfl | hq
    · have hdescends := h.of_adds hadds
      have hend := hl.unique (hdescends.leadsTo (hdescends.there_of_leadsTo hl))
      exact ⟨undotted rest, List.prefix_rfl, hend, fun _ => hlast⟩
    · obtain ⟨ms, hms, hne, hlms⟩ := location_of_above h (Path.above_of_mem_parents hq) hext hl hnone
      exact ⟨ms, hms, hlms, fun he => absurd he hne⟩

theorem ensureDirectory_ok_iff : (∃ e, d.ensureDirectory p = (.ok (), e)) ↔ d.Ends r rest := by
  constructor
  · rintro ⟨e, ho⟩
    have hwhole := (there_of_ensureDirectory h ho).whole
    by_cases hsame : e.entry? (r ++ undotted rest) = d.entry? (r ++ undotted rest)
    · exact Or.inr (hsame ▸ hwhole)
    · obtain ⟨ms, _, hms, hlast⟩ := new_of_ensureDirectory h ho hsame
      exact Or.inl (hlast (List.append_cancel_left hms).symm)
  · intro hends
    exact ensureLineage_of_descends h hends (Nat.lt_succ_self _)

theorem ensureDirectory_of_there (hthere : d.There r (undotted rest)) : d.ensureDirectory p = (.ok (), d) := by
  obtain ⟨e, ho⟩ := (ensureDirectory_ok_iff h).mpr (Or.inr hthere.whole)
  have hadds := adds_ensureLineage ho
  have hsame : e = d := by
    refine ext_entry? hadds.workingDirectory fun l => ?_
    by_contra hnew
    obtain ⟨hnone, _⟩ := hadds.new l hnew
    obtain ⟨ms, hms, rfl, _⟩ := new_of_ensureDirectory h ho hnew
    rw [hthere ms hms] at hnone
    cases hnone
  rw [ho, hsame]

end

end EclipseProject.Disk
