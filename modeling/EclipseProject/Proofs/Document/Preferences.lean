import EclipseProject.Document.Preferences
import EclipseProject.Proofs.Document.Properties

/-!
# Reading the preference files

Settings with plain keys and verbatim values are read as they were written. The directory of generated sources is not
checked before it is written, so it may hold line ends and escapes. Then lines are added, or its line is joined to the
next, but whatever comes of that, the directory is not read as it was.
-/

namespace EclipseProject.Preferences

open Properties

variable {settings : List (String × String)} {s : String × String}

/-! ## Documents of plain keys and verbatim values -/

def lineOf (s : String × String) : List Char := s.1.toList ++ '=' :: s.2.toList

def asRead (s : String × String) : List UInt16 × List UInt16 := (units s.1.toList, units s.2.toList)

/-- A setting that is read as it was written. -/
def Safe (s : String × String) : Prop := IsKey s.1.toList ∧ IsVerbatim s.2.toList

instance (s : String × String) : Decidable (Safe s) := inferInstanceAs (Decidable (_ ∧ _))

theorem toList_document (settings : List (String × String)) :
    (document settings).toList = ['\n'].intercalate (settings.map lineOf) := by
  rw [document, String.toList_intercalate, List.map_map]
  refine congrArg _ (List.map_congr_left fun s _ => ?_)
  simp [lineOf]

theorem toList_document_cons (s : String × String) (hne : settings ≠ []) :
    (document (s :: settings)).toList = lineOf s ++ '\n' :: (document settings).toList := by
  have hlines : settings.map lineOf ≠ [] := by simpa using hne
  rw [toList_document, toList_document, List.map_cons, List.intercalate_cons_of_ne_nil hlines]
  simp

theorem Safe.forall_mem (hs : Safe s) : ∀ c ∈ lineOf s, c ≠ '\n' ∧ c ≠ '\r' ∧ c ≠ '\\' := by
  intro c hc
  obtain hc | hc := List.mem_append.mp hc
  · obtain ⟨_, _, hbackslash, _, _, hlf, hcr⟩ := isPlain_iff.mp (hs.1.2 c hc)
    exact ⟨hlf, hcr, hbackslash⟩
  · obtain rfl | hc := List.mem_cons.mp hc
    · decide
    · simpa using hs.2.1 c hc

theorem Safe.ends (hs : Safe s) : ∀ c ∈ lineOf s, c ≠ '\n' ∧ c ≠ '\r' := fun c hc =>
  ⟨(hs.forall_mem c hc).1, (hs.forall_mem c hc).2.1⟩

theorem Safe.notMem (hs : Safe s) : '\\' ∉ lineOf s := fun h => (hs.forall_mem _ h).2.2 rfl

theorem lineOf_ne_nil (s : String × String) : lineOf s ≠ [] := by simp [lineOf]

theorem naturalLines_document (h : ∀ s ∈ settings, Safe s) (hne : settings ≠ []) :
    naturalLines (document settings).toList = settings.map lineOf := by
  induction settings with
  | nil => exact absurd rfl hne
  | cons s settings ih =>
    obtain ⟨hs, hsettings⟩ := List.forall_mem_cons.mp h
    by_cases hmore : settings = []
    · rw [hmore, toList_document, List.map_singleton, List.intercalate_singleton, naturalLines_of_forall hs.ends]
    · rw [toList_document_cons s hmore, naturalLines_append hs.ends, ih hsettings hmore, List.map_cons]

theorem logicalLines_cons (hs : Safe s) (more : List (List Char)) :
    logicalLines none (lineOf s :: more) = lineOf s :: logicalLines none more := by
  rw [logicalLines_none_cons (lineOf_ne_nil s) (hs.1.head _), continues_eq_false hs.notMem]
  rfl

theorem read_document (h : ∀ s ∈ settings, Safe s) : read (document settings) = some (settings.map asRead) := by
  by_cases hne : settings = []
  · rw [hne]
    rfl
  · have hlogical : logicalLines none (settings.map lineOf) = settings.map lineOf := by
      clear hne
      induction settings with
      | nil => rfl
      | cons s settings ih =>
        obtain ⟨hs, hsettings⟩ := List.forall_mem_cons.mp h
        rw [List.map_cons, logicalLines_cons hs, ih hsettings]
    rw [Properties.read, naturalLines_document h hne, hlogical, List.mapM_map]
    exact Text.mapM_eq_some_map fun s hs => entry_verbatim (h s hs).1 (h s hs).2

/-! ## The directory of generated sources -/

def aptEnabled : String × String := ("org.eclipse.jdt.apt.aptEnabled", "true")

def sourceKey : String := "org.eclipse.jdt.apt.genSrcDir"

def reconcileEnabled : String × String := ("org.eclipse.jdt.apt.reconcileEnabled", "true")

theorem annotationProcessing_eq (dir : String) :
    annotationProcessing dir = document [version, aptEnabled, (sourceKey, dir), reconcileEnabled] := rfl

theorem safe_others : Safe version ∧ Safe aptEnabled ∧ IsKey sourceKey.toList ∧ Safe reconcileEnabled := by
  decide +kernel

/-- The lines of the document, where the directory is cut where it has line ends itself. -/
theorem naturalLines_annotationProcessing (dir : String) : ∃ before part more,
    (dir.toList = before ∨ dir.toList = before ++ ['\r']) ∧
    part ++ more.flatten = before.filter (fun c => c ≠ '\n' ∧ c ≠ '\r') ∧
    naturalLines (annotationProcessing dir).toList =
      lineOf version :: lineOf aptEnabled :: ((sourceKey.toList ++ '=' :: part) :: more ++ [lineOf reconcileEnabled]) := by
  obtain ⟨hversion, hapt, hkey, hreconcile⟩ := safe_others
  obtain ⟨before, hbefore, hlines⟩ := naturalLines_append_newline dir.toList
  obtain ⟨part, more, hparts⟩ := Text.exists_lines (Xml.lineEnds before)
  replace hparts : naturalLines before = part :: more := hparts
  refine ⟨before, part, more, hbefore, ?_, ?_⟩
  · rw [← flatten_naturalLines, hparts, List.flatten_cons]
  · have hfront : ∀ c ∈ sourceKey.toList ++ ['='], c ≠ '\n' ∧ c ≠ '\r' := by
      intro c hc
      obtain hc | hc := List.mem_append.mp hc
      · exact (isPlain_iff.mp (hkey.2 c hc)).2.2.2.2.2
      · rw [List.mem_singleton.mp hc]
        decide
    have hlast : (document [reconcileEnabled]).toList = lineOf reconcileEnabled := by
      rw [toList_document, List.map_singleton, List.intercalate_singleton]
    have hvalue : naturalLines (dir.toList ++ '\n' :: lineOf reconcileEnabled) =
        part :: (more ++ [lineOf reconcileEnabled]) := by
      rw [hlines, hparts, naturalLines_of_forall hreconcile.ends, List.cons_append]
    have hdir := naturalLines_append_line hfront hvalue
    rw [annotationProcessing_eq, toList_document_cons _ (by simp), naturalLines_append hversion.ends,
      toList_document_cons _ (by simp), naturalLines_append hapt.ends, toList_document_cons _ (by simp), hlast]
    simpa [lineOf] using hdir

/-- A line end that follows another character than a backslash is not escaped. -/
theorem not_joined_of_getLast? {cs before part : List Char} {more : List (List Char)} (hbefore : cs = before ∨ cs = before ++ ['\r'])
    (hparts : part ++ more.flatten = before.filter (fun c => c ≠ '\n' ∧ c ≠ '\r')) (hend : cs.getLast? = some 'e')
    (hlate : ∀ l ∈ ((sourceKey.toList ++ '=' :: part) :: more).getLast?, l.getLast? = some '\\') : False := by
  obtain rfl | rfl := hbefore
  · obtain ⟨init, rfl⟩ := List.getLast?_eq_some_iff.mp hend
    have hflatten := getLast?_flatten_of_forall (List.cons_ne_nil _ _) hlate
    have hlast : ['e'].filter (fun c => c ≠ '\n' ∧ c ≠ '\r') = ['e'] := rfl
    rw [List.flatten_cons, List.append_assoc, List.cons_append, hparts, List.filter_append, hlast, ← List.cons_append,
      ← List.append_assoc, List.getLast?_concat] at hflatten
    exact absurd hflatten (by decide)
  · simp at hend

theorem entry_other (hs : s ∈ [version, aptEnabled, reconcileEnabled]) (us : List UInt16) :
    entry (lineOf s) ≠ some (units sourceKey.toList, us) := by
  have hothers : ∀ s ∈ [version, aptEnabled, reconcileEnabled], Safe s ∧ units s.1.toList ≠ units sourceKey.toList := by
    decide +kernel
  obtain ⟨hsafe, hkey⟩ := hothers s hs
  rw [lineOf, entry_verbatim hsafe.1 hsafe.2]
  exact fun h => hkey (congrArg Prod.fst (Option.some.inj h))

theorem isVerbatim_of_read {dir : String} {table : Table} (h : read (annotationProcessing dir) = some table)
    (hvalue : table.value? sourceKey = some (units dir.toList)) : IsVerbatim dir.toList := by
  obtain ⟨hversion, hapt, hkey, hreconcile⟩ := safe_others
  obtain ⟨before, part, more, hbefore, hparts, hlines⟩ := naturalLines_annotationProcessing dir
  obtain ⟨whole, hwhole, hentry⟩ := Text.exists_of_mem_mapM h (Table.mem_of_value? hvalue)
  rw [hlines, logicalLines_cons hversion, logicalLines_cons hapt, List.mem_cons, List.mem_cons] at hwhole
  obtain rfl | rfl | hwhole := hwhole
  · exact absurd hentry (entry_other (by simp) _)
  · exact absurd hentry (entry_other (by simp) _)
  have hprefix : before <+: dir.toList := by
    obtain e | e := hbefore
    · exact e ▸ List.prefix_rfl
    · exact ⟨_, e.symm⟩
  have htext : (part ++ more.flatten).Sublist (dir.toList.filter fun c => c ≠ '\n' ∧ c ≠ '\r') :=
    hparts ▸ hprefix.sublist.filter _
  obtain hwithin | rfl | ⟨⟨front, rfl⟩, hlate⟩ := mem_logicalLines_key (lineOf_ne_nil _) (hreconcile.1.head _)
    hreconcile.notMem hkey htext hwhole
  · exact isVerbatim_of_within hkey hwithin hentry rfl
  · exact absurd hentry (entry_other (by simp) _)
  -- the last line was joined to a backslash, but the value read ends as the last line does
  · exact absurd (getLast?_of_joined hreconcile.1 hentry rfl) fun hend => not_joined_of_getLast? hbefore hparts hend hlate

/-- **The directories that survive the preference file.** The file is read, and its directory as it was, exactly if the
directory has no line ends and no backslash and does not begin with a blank. Then the file defines the four keys, each as
it was meant. -/
theorem read_annotationProcessing (dir : String) :
    ((∃ table, read (annotationProcessing dir) = some table ∧
      table.value? "org.eclipse.jdt.apt.genSrcDir" = some (units dir.toList)) ↔ IsVerbatim dir.toList) ∧
    (IsVerbatim dir.toList → read (annotationProcessing dir) = some [
      (units "eclipse.preferences.version".toList, units "1".toList),
      (units "org.eclipse.jdt.apt.aptEnabled".toList, units "true".toList),
      (units "org.eclipse.jdt.apt.genSrcDir".toList, units dir.toList),
      (units "org.eclipse.jdt.apt.reconcileEnabled".toList, units "true".toList)]) := by
  obtain ⟨hversion, hapt, hkey, hreconcile⟩ := safe_others
  have hread : IsVerbatim dir.toList → read (annotationProcessing dir) =
      some ([version, aptEnabled, (sourceKey, dir), reconcileEnabled].map asRead) := by
    intro hdir
    refine read_document ?_
    simp only [List.forall_mem_cons]
    exact ⟨hversion, hapt, ⟨hkey, hdir⟩, hreconcile, List.forall_mem_nil _⟩
  refine ⟨⟨fun ⟨table, h, hvalue⟩ => isVerbatim_of_read h hvalue, fun hdir => ⟨_, hread hdir, ?_⟩⟩, hread⟩
  have hlast : units reconcileEnabled.1.toList ≠ units sourceKey.toList := by decide +kernel
  have hfind : [asRead reconcileEnabled, asRead (sourceKey, dir), asRead aptEnabled, asRead version].find?
      (·.1 == units sourceKey.toList) = some (asRead (sourceKey, dir)) := by
    simp [asRead, hlast]
  exact congrArg (Option.map Prod.snd) hfind

/-- A directory with separators and comment signs, and one that escapes the line end behind it. -/
theorem read_annotationProcessing_signs :
    IsVerbatim "a b:c=#!é".toList ∧ (read (annotationProcessing "a b:c=#!é")).map List.length = some 4 ∧
      ¬ ∃ table, read (annotationProcessing "a\\") = some table ∧
        table.value? "org.eclipse.jdt.apt.genSrcDir" = some (units "a\\".toList) := by
  have hsigns : IsVerbatim "a b:c=#!é".toList := by decide +kernel
  refine ⟨hsigns, ?_, ?_⟩
  · rw [(read_annotationProcessing "a b:c=#!é").2 hsigns]
    rfl
  · rw [(read_annotationProcessing "a\\").1]
    decide +kernel

-- a directory that adds a line of its own
example : (read (annotationProcessing "a\norg.eclipse.jdt.apt.aptEnabled : \\u0066alse")).bind
    (·.value? "org.eclipse.jdt.apt.aptEnabled") = some (units "false".toList) := by
  decide +kernel

end EclipseProject.Preferences
