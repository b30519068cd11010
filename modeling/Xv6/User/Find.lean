import Mathlib.Data.List.TakeWhile
import Xv6.Fs.Model

namespace Xv6.Find

open Xv6.Fs (Text DIRSIZ MAXPATH slash dot dotdot)

/-- The entries of a directory in their order, with all that is below it. `skip` is one that is not
in use, or . or .. -/
inductive Dir
  | nil
  | skip (rest : Dir)
  | file (name : Text) (rest : Dir)
  | device (name : Text) (rest : Dir)
  | dir (name : Text) (sub rest : Dir)

def Name (nm : Text) : Prop := slash ∉ nm ∧ nm.length ≤ DIRSIZ ∧ nm ≠ dot ∧ nm ≠ dotdot

/-- The path of an entry, as it is in buf. It is taken to fit. -/
def entryPath (path nm : Text) : Text := path ++ slash :: nm

/- The file that is searched for, and for each entry the bytes before a zero behind de. -/
variable (name : Text) (behind : Text → Text)

/-- What strcmp sees of the name of an entry: one of DIRSIZ bytes has no NUL. -/
def seen (path nm : Text) : Text :=
  if nm.length < DIRSIZ then nm else nm ++ behind (entryPath path nm)

/-- open succeeds: there are `free` descriptors that are not in use, and argstr finds the end of the
path. -/
def Opens (free : Nat) (path : Text) : Prop := free ≠ 0 ∧ path.length < MAXPATH

instance (free : Nat) (path : Text) : Decidable (Opens free path) :=
  inferInstanceAs (Decidable (_ ∧ _))

/-- The lines of find for a regular file. -/
def findFile (free : Nat) (path : Text) : List Text :=
  if Opens free path ∧ path = name then [path] else []

/-- The lines of the loop of find. For an entry that is not the file it has another find run, which
prints nothing for a device and needs a descriptor of its own for a directory. -/
def findLoop (free : Nat) (path : Text) : Dir → List Text
  | .nil => []
  | .skip rest => findLoop free path rest
  | .device _ rest => findLoop free path rest
  | .file nm rest =>
    if Opens free (entryPath path nm) then
      if seen behind path nm = name then [entryPath path nm]
      else findFile name free (entryPath path nm) ++ findLoop free path rest
    else findLoop free path rest
  | .dir nm sub rest =>
    (if Opens free (entryPath path nm) then findLoop (free - 1) (entryPath path nm) sub else []) ++
      findLoop free path rest

def main (free : Nat) (path : Text) (d : Dir) : List Text :=
  if Opens free path then findLoop name behind (free - 1) path d else []

namespace Dir

/-- The paths of the regular files below a directory with the name. -/
def targets (path : Text) : Dir → List Text
  | .nil => []
  | .skip rest => rest.targets path
  | .device _ rest => rest.targets path
  | .file nm rest => (if nm = name then [entryPath path nm] else []) ++ rest.targets path
  | .dir nm sub rest => sub.targets (entryPath path nm) ++ rest.targets path

def names : Dir → List Text
  | .nil => []
  | .skip rest => rest.names
  | .device nm rest => nm :: rest.names
  | .file nm rest => nm :: rest.names
  | .dir nm _ rest => nm :: rest.names

/-- The names in each directory are proper names and differ. -/
def Wf : Dir → Prop
  | .nil => True
  | .skip rest => rest.Wf
  | .device nm rest => Name nm ∧ nm ∉ rest.names ∧ rest.Wf
  | .file nm rest => Name nm ∧ nm ∉ rest.names ∧ rest.Wf
  | .dir nm sub rest => Name nm ∧ nm ∉ rest.names ∧ sub.Wf ∧ rest.Wf

/-- No target is behind another in its directory or the one that this is in, or too deep or too long
to open, strcmp sees all names as they are, and no path is the name. -/
def Exposed (free : Nat) (path : Text) : Dir → Prop
  | .nil => True
  | .skip rest => rest.Exposed free path
  | .device _ rest => rest.Exposed free path
  | .file nm rest =>
    if Opens free (entryPath path nm) then
      (seen behind path nm = name ↔ nm = name) ∧
        if nm = name then rest.targets name path = []
        else entryPath path nm ≠ name ∧ rest.Exposed free path
    else nm ≠ name ∧ rest.Exposed free path
  | .dir nm sub rest =>
    (if Opens free (entryPath path nm) then sub.Exposed (free - 1) (entryPath path nm)
      else sub.targets name (entryPath path nm) = []) ∧ rest.Exposed free path

end Dir

/-- A path and what is below it. -/
def Below (path t : Text) : Prop := t = path ∨ ∃ s, t = path ++ slash :: s

/-- The component of a path that follows another path. -/
def component (path t : Text) : Text := (t.drop (path.length + 1)).takeWhile (· ≠ slash)

variable {name behind}

theorem Below.up {path nm t : Text} (h : Below (entryPath path nm) t) : Below path t := by
  rcases h with rfl | ⟨s, rfl⟩
  · exact .inr ⟨nm, rfl⟩
  · exact .inr ⟨nm ++ slash :: s, by simp [entryPath]⟩

theorem Below.component {path nm t : Text} (hnm : Name nm) (h : Below (entryPath path nm) t) :
    component path t = nm := by
  have hall : ∀ b ∈ nm, (!decide (b = slash)) = true := by
    intro b hb
    simpa using ne_of_mem_of_not_mem hb hnm.1
  rcases h with rfl | ⟨s, rfl⟩
  · simpa [Find.component, entryPath] using List.takeWhile_eq_self_iff.mpr hall
  · simp [Find.component, entryPath, List.takeWhile_append_of_pos hall]

theorem mem_findLoop {free : Nat} {path t : Text} {d : Dir}
    (h : t ∈ findLoop name behind free path d) : ∃ nm ∈ d.names, Below (entryPath path nm) t := by
  induction d generalizing free path with
  | nil => cases h
  | skip rest ih => exact ih h
  | device nm rest ih =>
    obtain ⟨nm', hm, hb⟩ := ih h
    exact ⟨nm', List.mem_cons_of_mem _ hm, hb⟩
  | file nm rest ih =>
    have hrest (hr : t ∈ findLoop name behind free path rest) :
        ∃ nm' ∈ (Dir.file nm rest).names, Below (entryPath path nm') t := by
      obtain ⟨nm', hm, hb⟩ := ih hr
      exact ⟨nm', List.mem_cons_of_mem _ hm, hb⟩
    rw [findLoop] at h
    split_ifs at h with h0 hseen
    · exact ⟨nm, List.mem_cons_self, .inl (List.mem_singleton.mp h)⟩
    · rcases List.mem_append.mp h with hf | hr
      · rw [findFile] at hf
        split_ifs at hf
        · exact ⟨nm, List.mem_cons_self, .inl (List.mem_singleton.mp hf)⟩
        · cases hf
      · exact hrest hr
    · exact hrest h
  | dir nm sub rest ihs ih =>
    rcases List.mem_append.mp h with hs | hr
    · split_ifs at hs
      · obtain ⟨_, -, hb⟩ := ihs hs
        exact ⟨nm, List.mem_cons_self, hb.up⟩
      · cases hs
    · obtain ⟨nm', hm, hb⟩ := ih hr
      exact ⟨nm', List.mem_cons_of_mem _ hm, hb⟩

theorem mem_targets {path t : Text} {d : Dir} (h : t ∈ d.targets name path) :
    ∃ nm ∈ d.names, Below (entryPath path nm) t := by
  induction d generalizing path with
  | nil => cases h
  | skip rest ih => exact ih h
  | device nm rest ih =>
    obtain ⟨nm', hm, hb⟩ := ih h
    exact ⟨nm', List.mem_cons_of_mem _ hm, hb⟩
  | file nm rest ih =>
    rcases List.mem_append.mp h with hf | hr
    · split_ifs at hf
      · exact ⟨nm, List.mem_cons_self, .inl (List.mem_singleton.mp hf)⟩
      · cases hf
    · obtain ⟨nm', hm, hb⟩ := ih hr
      exact ⟨nm', List.mem_cons_of_mem _ hm, hb⟩
  | dir nm sub rest ihs ih =>
    rcases List.mem_append.mp h with hs | hr
    · obtain ⟨_, -, hb⟩ := ihs hs
      exact ⟨nm, List.mem_cons_self, hb.up⟩
    · obtain ⟨nm', hm, hb⟩ := ih hr
      exact ⟨nm', List.mem_cons_of_mem _ hm, hb⟩

theorem Dir.Wf.names_name {d : Dir} (h : d.Wf) : ∀ nm ∈ d.names, Name nm := by
  induction d with
  | nil => simp [names]
  | skip rest ih => exact ih h
  | device nm rest ih => exact List.forall_mem_cons.mpr ⟨h.1, ih h.2.2⟩
  | file nm rest ih => exact List.forall_mem_cons.mpr ⟨h.1, ih h.2.2⟩
  | dir nm sub rest _ ih => exact List.forall_mem_cons.mpr ⟨h.1, ih h.2.2.2⟩

theorem filter_key {α κ : Type} [DecidableEq κ] (f : α → κ) (k : κ) {a b : List α}
    (ha : ∀ x ∈ a, f x = k) (hb : ∀ x ∈ b, f x ≠ k) :
    (a ++ b).filter (f · = k) = a ∧ (a ++ b).filter (f · ≠ k) = b := by
  rw [List.filter_append, List.filter_append]
  constructor
  · rw [List.filter_eq_self.mpr (by simpa using ha), List.filter_eq_nil_iff.mpr (by simpa using hb),
      List.append_nil]
  · rw [List.filter_eq_nil_iff.mpr (by simpa using ha), List.filter_eq_self.mpr (by simpa using hb),
      List.nil_append]

/-- The lines of an entry and of those behind it do not mix. -/
theorem perm_append_iff {path nm : Text} {rest : Dir} {a b c d : List Text} (hnm : Name nm)
    (hrest : nm ∉ rest.names) (hwf : rest.Wf) (ha : ∀ t ∈ a, Below (entryPath path nm) t)
    (hc : ∀ t ∈ c, Below (entryPath path nm) t)
    (hb : ∀ t ∈ b, ∃ nm' ∈ rest.names, Below (entryPath path nm') t)
    (hd : ∀ t ∈ d, ∃ nm' ∈ rest.names, Below (entryPath path nm') t) :
    (a ++ b).Perm (c ++ d) ↔ a.Perm c ∧ b.Perm d := by
  have hne {t : Text} (h : ∃ nm' ∈ rest.names, Below (entryPath path nm') t) :
      component path t ≠ nm := by
    obtain ⟨nm', hm, ht⟩ := h
    rw [ht.component (hwf.names_name nm' hm)]
    exact ne_of_mem_of_not_mem hm hrest
  have hab := filter_key (component path) nm (fun t h => (ha t h).component hnm)
    fun t h => hne (hb t h)
  have hcd := filter_key (component path) nm (fun t h => (hc t h).component hnm)
    fun t h => hne (hd t h)
  constructor
  · intro h
    have hl := h.filter (component path · = nm)
    have hr := h.filter (component path · ≠ nm)
    rw [hab.1, hcd.1] at hl
    rw [hab.2, hcd.2] at hr
    exact ⟨hl, hr⟩
  · rintro ⟨h, h'⟩
    exact h.append h'

theorem entryPath_ne (path nm : Text) : entryPath path nm ≠ nm := fun h => by
  have := congrArg List.length h
  simp [entryPath] at this
  omega

theorem findLoop_perm_iff {free : Nat} {path : Text} {d : Dir} (hwf : d.Wf) :
    (findLoop name behind free path d).Perm (d.targets name path) ↔
      d.Exposed name behind free path := by
  induction d generalizing free path with
  | nil => simp [findLoop, Dir.targets, Dir.Exposed]
  | skip rest ih => exact ih hwf
  | device nm rest ih => exact ih hwf.2.2
  | file nm rest ih =>
    obtain ⟨hnm, hrest, hwf⟩ := hwf
    have hsplit {a b : List Text} (ha : ∀ t ∈ a, t = entryPath path nm)
        (hb : ∀ t ∈ b, ∃ nm' ∈ rest.names, Below (entryPath path nm') t) :
        (a ++ b).Perm (Dir.targets name path (.file nm rest)) ↔
          a.Perm (if nm = name then [entryPath path nm] else []) ∧
            b.Perm (rest.targets name path) := by
      apply perm_append_iff hnm hrest hwf (fun t h => .inl (ha t h)) _ hb fun t h => mem_targets h
      intro t h
      split_ifs at h
      · exact .inl (List.mem_singleton.mp h)
      · cases h
    rw [findLoop, Dir.Exposed]
    have hloop (t : Text) (h : t ∈ findLoop name behind free path rest) := mem_findLoop h
    split_ifs with h0 hseen hname hname
    · rw [← List.append_nil [_], hsplit (by simp) (by simp)]
      simp [hseen]
    · rw [← List.append_nil [_], hsplit (by simp) (by simp)]
      simp [hseen, hname]
    · subst hname
      rw [hsplit (by simp [findFile]) hloop]
      simp [findFile, hseen, entryPath_ne]
    · rw [hsplit (by simp [findFile]) hloop, ih hwf]
      simp [findFile, h0, hseen, hname]
    · rw [← List.nil_append (findLoop ..), hsplit (by simp) hloop, ih hwf]
      simp
  | dir nm sub rest ihs ih =>
    obtain ⟨hnm, hrest, hsub, hwf⟩ := hwf
    rw [findLoop, Dir.Exposed, Dir.targets, perm_append_iff hnm hrest hwf, ih hwf]
    · split_ifs
      · rw [ihs hsub]
      · simp
    · intro t h
      split_ifs at h
      · obtain ⟨_, -, hb⟩ := mem_findLoop h
        exact hb.up
      · cases h
    · intro t h
      obtain ⟨_, -, hb⟩ := mem_targets h
      exact hb.up
    · exact fun t h => mem_findLoop h
    · exact fun t h => mem_targets h

/-- Among the files below a directory find prints those with the name once each, and nothing else,
only when they are exposed. -/
theorem find_complete_iff (name : Text) (behind : Text → Text) (free : Nat) (path : Text) (d : Dir)
    (hwf : d.Wf) :
    (main name behind free path d).Perm (d.targets name path) ↔
      if Opens free path then d.Exposed name behind (free - 1) path else d.targets name path = [] := by
  rw [main]
  split_ifs with h
  · exact findLoop_perm_iff hwf
  · exact List.nil_perm

/-- In ./d and then . there is a file a. -/
theorem find_complete_deepest :
    (main [97] (fun _ => []) 13 [46] (.dir [100] (.file [97] .nil) (.file [97] .nil))).Perm
      [[46, 47, 100, 47, 97], [46, 47, 97]] :=
  (find_complete_iff [97] (fun _ => []) 13 [46] (.dir [100] (.file [97] .nil) (.file [97] .nil))
    (by simp [Dir.Wf, Dir.names, Name, slash, dot, dotdot, DIRSIZ])).mpr
    (by simp [Dir.Exposed, Dir.targets, seen, Opens, MAXPATH, entryPath])

/-- With the entries the other way round ./d is not searched. -/
theorem find_stops :
    (Dir.file [97] (.dir [100] (.file [97] .nil) .nil)).Wf ∧
      [46, 47, 100, 47, 97] ∈ (Dir.file [97] (.dir [100] (.file [97] .nil) .nil)).targets [97] [46] ∧
        main [97] (fun _ => []) 13 [46] (.file [97] (.dir [100] (.file [97] .nil) .nil)) =
          [[46, 47, 97]] := by
  simp [Dir.Wf, Dir.names, Name, slash, dot, dotdot, DIRSIZ, Dir.targets, entryPath, main, findLoop,
    seen, Opens, MAXPATH]

end Xv6.Find
