import CfKernel.Fat.Shifts

/-!
# Paths

`lookup.c` on a FAT volume that is mounted as the root, and the parts of `vfs_open` and
`vfs_unlink` that lead to a vnode. A path is the bytes of a C string before its zero; the loops
over components run on fuel, of which each turn that goes on takes at least one byte of the path.
-/

namespace CfKernel.Vfs

open Lib Lib.Eff Fat

/-- `vfs_next_component`: the component, if there is one, and the cursor after it. `has_more` is
`rest ≠ []`. -/
def vfsNextComponent (cursor : List UInt8) : Except Errno (Option (List UInt8) × List UInt8) :=
  let p := cursor.dropWhile (· = 0x2F)
  let name := p.takeWhile (· ≠ 0x2F)
  if p = [] then .ok (none, [])
  else if 255 < name.length then .error .nameTooLong
  else .ok (some name, (p.drop name.length).dropWhile (· = 0x2F))

def vfsLookupComponent (sb : FatSuper) (dir : FatNode) (name : List UInt8) : FatM FatNode :=
  if dir.isDir = false then Eff.fail .notDirectory else fatLookupVn sb dir name

def vfsLookupLoop (sb : FatSuper) : Nat → List UInt8 → FatNode → FatM FatNode
  | 0, _, current => pure current
  | n + 1, cursor, current => do
    match ← Eff.read fun _ => vfsNextComponent cursor with
    | (none, _) => pure current
    | (some name, rest) => do
      let next ← vfsLookupComponent sb current name
      vfsLookupLoop sb n rest next

def endsInSlash (path : List UInt8) : Bool := path.getLast? = some 0x2F

def vfsLookup (sb : FatSuper) (path : List UInt8) : FatM FatNode :=
  if path = [] then Eff.fail .invalidArgument
  else do
    let current ← vfsLookupLoop sb (path.length + 1) path (fatRootNode sb)
    if endsInSlash path = true ∧ current.isDir = false then Eff.fail .notDirectory
    else pure current

def vfsResolveLoop (sb : FatSuper) : Nat → List UInt8 → FatNode → FatM (FatNode × List UInt8)
  | 0, _, _ => Eff.fail .invalidArgument
  | n + 1, cursor, current => do
    match ← Eff.read fun _ => vfsNextComponent cursor with
    | (none, _) => Eff.fail .invalidArgument
    | (some name, rest) =>
      if rest = [] then
        if isDotName name then Eff.fail .invalidArgument
        else do
          malloc
          pure (current, name)
      else do
        let next ← vfsLookupComponent sb current name
        vfsResolveLoop sb n rest next

/-- `vfs_resolve_parent_path`: the vnode of the parent and the last component. -/
def vfsResolveParentPath (sb : FatSuper) (path : List UInt8) : FatM (FatNode × List UInt8) :=
  if path = [] then Eff.fail .invalidArgument
  else vfsResolveLoop sb (path.length + 1) path (fatRootNode sb)

/-- The branch of `vfs_open` for a path that is not there. -/
def vfsCreateFile (sb : FatSuper) (path : List UInt8) : FatM FatNode :=
  if endsInSlash path then Eff.fail .notDirectory
  else do
    let target ← vfsResolveParentPath sb path
    fatCreateVn sb target.1 target.2 .file

/-- The vnode that `vfs_open` opens; `create` is the flag `VFS_O_CREATE`. -/
def vfsFindOrCreate (sb : FatSuper) (path : List UInt8) (create : Bool) : FatM FatNode := do
  match ← Eff.attempt (vfsLookup sb path) with
  | .ok vn => pure vn
  | .error e => if e = .notFound ∧ create = true then vfsCreateFile sb path else Eff.fail e

/-- `vfs_open` up to its new file, whose vnode this returns. -/
def vfsOpenVnode (sb : FatSuper) (path : List UInt8) (create : Bool) : FatM FatNode := do
  let vn ← vfsFindOrCreate sb path create
  malloc
  pure vn

/-- `vfs_unlink` after its test of a path that ends in a slash. -/
def vfsUnlinkEntry (sb : FatSuper) (path : List UInt8) : FatM Unit := do
  let target ← vfsResolveParentPath sb path
  if target.1.isDir = false then Eff.fail .notDirectory
  else fatUnlinkVn sb target.1 target.2

def vfsUnlink (sb : FatSuper) (path : List UInt8) : FatM Unit := do
  (if 1 < path.length ∧ endsInSlash path = true then do
    let target ← vfsLookup sb path
    if target.isDir = false then Eff.fail .notDirectory else pure ()
  else pure ())
  vfsUnlinkEntry sb path

/-- The components that the loops meet, up to one that is too long. -/
def componentsFrom : Nat → List UInt8 → List (List UInt8)
  | 0, _ => []
  | n + 1, cursor =>
    match vfsNextComponent cursor with
    | .ok (some name, rest) => name :: componentsFrom n rest
    | _ => []

def components (path : List UInt8) : List (List UInt8) := componentsFrom (path.length + 1) path

def NoDots (path : List UInt8) : Prop := ∀ name ∈ components path, isDotName name = false

/-- The vnode that the components lead to from `dir`. -/
def Leads (sb : FatSuper) (d : Disk) (dir : FatNode) (names : List (List UInt8))
    (node : FatNode) : Prop :=
  (names = [] ∧ node = dir) ∨ ∃ a, sb.Finds d dir names a ∧ node = nodeAt d a

variable {sb : FatSuper} {d d' : Disk} {dir node : FatNode} {s t : FatState} {a n : Nat}
variable {path cursor name rest : List UInt8} {names : List (List UInt8)}

theorem Leads.cons (hr : sb.Resolves d dir name a) (h : Leads sb d (nodeAt d a) names node) :
    Leads sb d dir (name :: names) node := by
  rcases h with ⟨rfl, rfl⟩ | ⟨b, hb, rfl⟩
  · exact .inr ⟨a, .last hr, rfl⟩
  · exact .inr ⟨b, .step hr hb, rfl⟩

section

variable (h : Leads sb d dir names node)
include h

theorem Leads.finds (hr : sb.Resolves d node name a) : sb.Finds d dir (names ++ [name]) a := by
  rcases h with ⟨rfl, rfl⟩ | ⟨b, hb, rfl⟩
  · exact .last hr
  · induction hb with
    | last hr' => exact .step hr' (.last hr)
    | step hr' _ ih => exact .step hr' (ih hr)

theorem Leads.current (hdir : sb.Current d dir)
    (hnames : ∀ name ∈ names, isDotName name = false) : sb.Current d node := by
  rcases h with ⟨-, rfl⟩ | ⟨b, hb, rfl⟩
  · exact hdir
  · exact .inr ⟨b, (hb.liveEntry hnames).1, (hb.liveEntry hnames).2, rfl⟩

theorem Leads.kept (hk : sb.Kept d d' (fun _ => True) (fun _ => True))
    (hnames : ∀ name ∈ names, isDotName name = false) : Leads sb d' dir names node := by
  rcases h with h | ⟨b, hb, rfl⟩
  · exact .inl h
  · obtain ⟨hlive, hdot⟩ := hb.liveEntry hnames
    exact .inr ⟨b, hk.finds _ _ b hb hnames trivial, (hk.entry b hlive hdot trivial).2.2.symm⟩

end

theorem vfsLookupComponent_spec (h : sb.Current s.disk dir) (hwf : sb.WellFormed s.disk)
    (name : List UInt8) : ∃ r mem, vfsLookupComponent sb dir name s = (r, { s with mem := mem }) ∧
      ∀ next, r = .ok next → ∃ a, sb.Resolves s.disk dir name a ∧ next = nodeAt s.disk a := by
  by_cases hdir : dir.isDir = false
  · exact ⟨.error .notDirectory, s.mem, by rw [vfsLookupComponent, if_pos hdir]; rfl, by simp⟩
  · rw [vfsLookupComponent, if_neg hdir]
    exact h.lookup hwf name

theorem componentsFrom_some (hc : vfsNextComponent cursor = .ok (some name, rest)) :
    componentsFrom (n + 1) cursor = name :: componentsFrom n rest := by
  rw [componentsFrom, hc]

theorem vfsLookupLoop_spec (n : Nat) (h : sb.Current s.disk dir) (hwf : sb.WellFormed s.disk)
    (hnames : ∀ name ∈ componentsFrom n cursor, isDotName name = false) :
    ∃ r mem, vfsLookupLoop sb n cursor dir s = (r, { s with mem := mem }) ∧
      ∀ node, r = .ok node → Leads sb s.disk dir (componentsFrom n cursor) node := by
  induction n generalizing cursor dir s with
  | zero =>
    refine ⟨.ok dir, s.mem, rfl, ?_⟩
    rintro _ ⟨⟩
    exact .inl ⟨rfl, rfl⟩
  | succ n ih =>
    rw [vfsLookupLoop]
    cases hc : vfsNextComponent cursor with
    | error e => exact ⟨.error e, s.mem, bind_error rfl, by simp⟩
    | ok found =>
      obtain ⟨_ | name, rest⟩ := found
      · refine ⟨.ok dir, s.mem, (bind_ok (a := _) (t := _) rfl).trans rfl, ?_⟩
        rintro _ ⟨⟩
        exact .inl ⟨by rw [componentsFrom, hc], rfl⟩
      · rw [componentsFrom_some hc] at hnames ⊢
        obtain ⟨r, mem, hrun, hr⟩ := vfsLookupComponent_spec h hwf name
        cases r with
        | error e =>
          exact ⟨.error e, mem, (bind_ok (a := _) (t := _) rfl).trans (bind_error hrun), by simp⟩
        | ok next =>
          obtain ⟨a, ha, rfl⟩ := hr next rfl
          obtain ⟨hname, htail⟩ := List.forall_mem_cons.mp hnames
          obtain ⟨r', mem', hrun', hr'⟩ := ih (s := { s with mem := mem }) (ha.current hname) hwf
            htail
          refine ⟨r', mem', (bind_ok (a := _) (t := _) rfl).trans ((bind_ok hrun).trans hrun'), ?_⟩
          exact fun node hnode => (hr' node hnode).cons ha

theorem vfsLookup_spec (hwf : sb.WellFormed s.disk) (hpath : NoDots path) :
    ∃ r mem, vfsLookup sb path s = (r, { s with mem := mem }) ∧
      ∀ node, r = .ok node → Leads sb s.disk (fatRootNode sb) (components path) node := by
  by_cases hnil : path = []
  · exact ⟨.error .invalidArgument, s.mem, by rw [vfsLookup, if_pos hnil]; rfl, by simp⟩
  obtain ⟨r, mem, hrun, hr⟩ := vfsLookupLoop_spec (path.length + 1) (.inl rfl) hwf hpath
  rw [vfsLookup, if_neg hnil]
  cases r with
  | error e => exact ⟨.error e, mem, bind_error hrun, by simp⟩
  | ok node =>
    rw [bind_ok hrun]
    split_ifs with hslash
    · exact ⟨.error .notDirectory, mem, rfl, by simp⟩
    · refine ⟨.ok node, mem, rfl, ?_⟩
      rintro _ ⟨⟩
      exact hr node rfl

theorem componentsFrom_nil (n : Nat) : componentsFrom n [] = [] := by
  cases n with
  | zero => rfl
  | succ n => rfl

theorem vfsResolveLoop_last (hc : vfsNextComponent cursor = .ok (some name, []))
    (hname : isDotName name = false) : vfsResolveLoop sb (n + 1) cursor dir s =
      (malloc >>= fun _ => pure (dir, name) : FatM _) s := by
  rw [vfsResolveLoop, hc]
  refine (bind_ok (a := _) (t := _) rfl).trans ?_
  dsimp only
  rw [if_pos rfl, if_neg (by rw [hname]; decide)]

theorem vfsResolveLoop_more
    (hc : vfsNextComponent cursor = .ok (some name, rest)) (hrest : rest ≠ []) :
    vfsResolveLoop sb (n + 1) cursor dir s =
      (vfsLookupComponent sb dir name >>= vfsResolveLoop sb n rest : FatM _) s := by
  rw [vfsResolveLoop, hc]
  refine (bind_ok (a := _) (t := _) rfl).trans ?_
  dsimp only
  rw [if_neg hrest]

theorem vfsResolveLoop_spec (n : Nat) (h : sb.Current s.disk dir) (hwf : sb.WellFormed s.disk)
    (hnames : ∀ name ∈ componentsFrom n cursor, isDotName name = false) :
    ∃ r mem, vfsResolveLoop sb n cursor dir s = (r, { s with mem := mem }) ∧
      ∀ target, r = .ok target → ∃ names, componentsFrom n cursor = names ++ [target.2] ∧
        Leads sb s.disk dir names target.1 := by
  induction n generalizing cursor dir s with
  | zero => exact ⟨.error .invalidArgument, s.mem, rfl, by simp⟩
  | succ n ih =>
    cases hc : vfsNextComponent cursor with
    | error e => exact ⟨.error e, s.mem, by rw [vfsResolveLoop, hc]; exact bind_error rfl, by simp⟩
    | ok found =>
      obtain ⟨_ | name, rest⟩ := found
      · exact ⟨.error .invalidArgument, s.mem, by rw [vfsResolveLoop, hc]; rfl, by simp⟩
      · rw [componentsFrom_some hc] at hnames ⊢
        obtain ⟨hname, htail⟩ := List.forall_mem_cons.mp hnames
        by_cases hrest : rest = []
        · subst hrest
          rw [vfsResolveLoop_last hc hname]
          obtain ⟨mem, hm | hm⟩ := malloc_cases s
          · refine ⟨.ok (dir, name), mem, (bind_ok hm).trans rfl, ?_⟩
            rintro _ ⟨⟩
            exact ⟨[], by rw [componentsFrom_nil]; rfl, .inl ⟨rfl, rfl⟩⟩
          · exact ⟨.error .outOfMemory, mem, bind_error hm, by simp⟩
        · rw [vfsResolveLoop_more hc hrest]
          obtain ⟨r, mem, hrun, hr⟩ := vfsLookupComponent_spec h hwf name
          cases r with
          | error e => exact ⟨.error e, mem, bind_error hrun, by simp⟩
          | ok next =>
            obtain ⟨a, ha, rfl⟩ := hr next rfl
            obtain ⟨r', mem', hrun', hr'⟩ := ih (s := { s with mem := mem })
              (ha.current hname) hwf htail
            refine ⟨r', mem', (bind_ok hrun).trans hrun', fun target ht => ?_⟩
            obtain ⟨names, heq, hlead⟩ := hr' target ht
            exact ⟨name :: names, by rw [heq]; rfl, hlead.cons ha⟩

theorem vfsResolveParentPath_spec (hwf : sb.WellFormed s.disk) (hpath : NoDots path) :
    ∃ r mem, vfsResolveParentPath sb path s = (r, { s with mem := mem }) ∧
      ∀ target, r = .ok target → ∃ names, components path = names ++ [target.2] ∧
        Leads sb s.disk (fatRootNode sb) names target.1 := by
  by_cases hnil : path = []
  · exact ⟨.error .invalidArgument, s.mem, by rw [vfsResolveParentPath, if_pos hnil]; rfl, by simp⟩
  · rw [vfsResolveParentPath, if_neg hnil]
    exact vfsResolveLoop_spec (path.length + 1) (.inl rfl) hwf hpath

/-- A creating open is safe if the last component does not end in a dot and its directory has
nothing but free slots after the end mark. -/
def CreateSafe (sb : FatSuper) (d : Disk) (path : List UInt8) : Prop :=
  ∀ names leaf dir, components path = names ++ [leaf] → Leads sb d (fatRootNode sb) names dir →
    leaf.getLast? ≠ some 0x2E ∧ (dir.isDir = true → sb.CleanDir d dir.firstCluster)

section

variable (hwf : sb.WellFormed s.disk)
include hwf

section

variable (hpath : NoDots path)
variable {create : Bool}
include hpath

/-- The call leaves every open vnode alone and returns a vnode that the path leads to. -/
def Opens (sb : FatSuper) (path : List UInt8) (call : FatM FatNode) (s : FatState) : Prop :=
  ∃ r t, call s = (r, t) ∧ sb.Kept s.disk t.disk (fun _ => True) (fun _ => True) ∧
    ∀ node, r = .ok node → Leads sb t.disk (fatRootNode sb) (components path) node

theorem vfsCreateFile_spec (hsafe : CreateSafe sb s.disk path) :
    Opens sb path (vfsCreateFile sb path) s := by
  by_cases hslash : endsInSlash path = true
  · exact ⟨.error .notDirectory, s, by rw [vfsCreateFile, if_pos hslash]; rfl, .refl hwf _ _,
      by simp⟩
  rw [vfsCreateFile, if_neg hslash]
  obtain ⟨r, mem, hrun, hr⟩ := vfsResolveParentPath_spec hwf hpath
  cases r with
  | error e => exact ⟨.error e, _, bind_error hrun, .refl hwf _ _, by simp⟩
  | ok target =>
    obtain ⟨names, heq, hlead⟩ := hr target rfl
    have hnames : ∀ name ∈ names, isDotName name = false :=
      fun name hn => hpath name (by rw [heq]; exact List.mem_append_left _ hn)
    obtain ⟨hdot, hclean⟩ := hsafe names target.2 target.1 heq hlead
    obtain ⟨r', t, hcr, hk, hr'⟩ := FatSuper.Current.create_kept (s := { s with mem := mem })
      (hlead.current (.inl rfl) hnames) hwf hclean hdot .file
    refine ⟨r', t, (bind_ok hrun).trans hcr, hk, fun node hnode => ?_⟩
    obtain ⟨a, ha, rfl⟩ := hr' node hnode
    rw [heq]
    exact .inr ⟨a, (hlead.kept hk hnames).finds ha, rfl⟩

theorem vfsFindOrCreate_spec (hsafe : create = true → CreateSafe sb s.disk path) :
    Opens sb path (vfsFindOrCreate sb path create) s := by
  obtain ⟨r, mem, hrun, hr⟩ := vfsLookup_spec hwf hpath
  rw [Opens, vfsFindOrCreate, bind_ok (attempt_run hrun)]
  cases r with
  | ok node => exact ⟨.ok node, _, rfl, .refl hwf _ _, hr⟩
  | error e =>
    dsimp only
    split_ifs with hc
    · exact vfsCreateFile_spec (s := { s with mem := mem }) hwf hpath (hsafe hc.2)
    · exact ⟨.error e, _, rfl, .refl hwf _ _, by simp⟩

theorem vfsOpenVnode_spec (hsafe : create = true → CreateSafe sb s.disk path) :
    Opens sb path (vfsOpenVnode sb path create) s := by
  obtain ⟨r, t, hrun, hk, hr⟩ := vfsFindOrCreate_spec hwf hpath hsafe
  rw [Opens, vfsOpenVnode]
  cases r with
  | error e => exact ⟨.error e, t, bind_error hrun, hk, by simp⟩
  | ok node =>
    rw [bind_ok hrun]
    obtain ⟨mem, hm | hm⟩ := malloc_cases t
    · exact ⟨.ok node, _, (bind_ok hm).trans rfl, hk, hr⟩
    · exact ⟨.error .outOfMemory, _, bind_error hm, hk, by simp⟩

theorem vfsUnlinkEntry_spec :
    ∃ r t, vfsUnlinkEntry sb path s = (r, t) ∧ sb.Kept s.disk t.disk
      (fun b => ¬ sb.Finds s.disk (fatRootNode sb) (components path) b) (fun _ => True) := by
  obtain ⟨r, mem, hrun, hr⟩ := vfsResolveParentPath_spec hwf hpath
  cases r with
  | error e => exact ⟨.error e, _, bind_error hrun, .refl hwf _ _⟩
  | ok target =>
    obtain ⟨names, heq, hlead⟩ := hr target rfl
    rw [vfsUnlinkEntry, bind_ok hrun]
    split_ifs with hdir
    · exact ⟨.error .notDirectory, _, rfl, .refl hwf _ _⟩
    · have hcur : sb.Current s.disk target.1 := hlead.current (.inl rfl) fun name hn =>
        hpath name (by rw [heq]; exact List.mem_append_left _ hn)
      obtain ⟨r, t, hun, hk⟩ := FatSuper.Current.unlink_kept (s := { s with mem := mem }) hcur hwf
        (hpath target.2 (by simp [heq]))
      refine ⟨r, t, hun, hk.mono fun b hb hres => hb ?_⟩
      rw [heq]
      exact hlead.finds hres

/-- `vfs_unlink` leaves every vnode alone that is open on another entry than the path's. -/
theorem vfsUnlink_spec :
    ∃ r t, vfsUnlink sb path s = (r, t) ∧ sb.Kept s.disk t.disk
      (fun b => ¬ sb.Finds s.disk (fatRootNode sb) (components path) b) (fun _ => True) := by
  rw [vfsUnlink]
  split_ifs with hslash
  · obtain ⟨r, mem, hrun, -⟩ := vfsLookup_spec hwf hpath
    cases r with
    | error e => exact ⟨.error e, _, bind_error (bind_error hrun), .refl hwf _ _⟩
    | ok target =>
      by_cases hdir : target.isDir = false
      · refine ⟨.error .notDirectory, { s with mem := mem }, bind_error ?_, .refl hwf _ _⟩
        rw [bind_ok hrun, if_pos hdir]
        rfl
      · obtain ⟨r, t, hun, hk⟩ := vfsUnlinkEntry_spec (s := { s with mem := mem }) hwf hpath
        refine ⟨r, t, (bind_ok (a := ()) ?_).trans hun, hk⟩
        rw [bind_ok hrun, if_neg hdir]
        rfl
  · obtain ⟨r, t, hun, hk⟩ := vfsUnlinkEntry_spec hwf hpath
    exact ⟨r, t, (bind_ok (a := _) (t := _) rfl).trans hun, hk⟩

end

end

end CfKernel.Vfs
