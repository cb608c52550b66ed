import CfKernel.Fd.Table

/-!
# Reference counts of FAT vnodes

`fat_lookup_vn` and `fat_create_vn` allocate a vnode for every call, and the walks of `lookup.c`
and `vfs.c` pass them on. Here a vnode is an object with its `refcnt`, and each function does what
`Fat` and `Vfs` say about the volume; `Lifts` is this connection. `Made` says which vnodes are left
behind: those handed to the file layer are, and those that a function releases itself are not.
-/

namespace CfKernel.Vfs.Counted

open Lib Lib.Eff Fat Function

/-- A vnode with the `fat_node_t` it owns. -/
structure FatVnode where
  refcnt : Nat
  node : FatNode
  deriving DecidableEq

structure World where
  fat : FatState
  vnodes : Heap FatVnode
  files : Heap Fd.OpenFile
  root : Nat

abbrev WorldM := Eff (Trap Errno) World

def vnodes : Field World (Heap FatVnode) := ⟨World.vnodes, fun h w => { w with vnodes := h }⟩

def files : Field World (Heap Fd.OpenFile) := ⟨World.files, fun h w => { w with files := h }⟩

def failWith {α : Type} (e : Errno) : WorldM α := Eff.fail (.code e)

def onFat {α : Type} (m : FatM α) : WorldM α := fun w =>
  ((m w.fat).1.mapError .code, { w with fat := (m w.fat).2 })

section Code

variable (sb : FatSuper)

def vnodeRef (vn : Nat) : WorldM Unit := vnodes.store vn fun v => { v with refcnt := v.refcnt + 1 }

/-- `fat_destroy_vn` frees the node, which goes with the vnode here. -/
def vnodeUnref (vn : Nat) : WorldM Unit := do
  let v ← vnodes.load vn
  if v.refcnt = 0 then pure ()
  else do
    vnodes.store vn fun v => { v with refcnt := v.refcnt - 1 }
    if v.refcnt - 1 = 0 then vnodes.release vn else pure ()

def fatLookup (dir : Nat) (name : List UInt8) : WorldM Nat := do
  let d ← vnodes.load dir
  let node ← onFat (fatLookupVn sb d.node name)
  vnodes.new ⟨1, node⟩

/-- `fat_create_vn` once it has its vnode, up to the directory entry. -/
def fatWriteEntry (dir : FatNode) (shortName : List UInt8) (type : VnodeType) (attr : UInt8)
    (sector offset firstCluster : Nat) : FatM Unit := do
  (if type = .dir then do
    malloc
    toDisk fun d => fatWriteCluster sb d firstCluster (fatDotContents firstCluster dir.firstCluster)
  else pure ())
  toDisk fun d => do
    let buf ← fatReadSector sb d sector
    fatWriteSector sb d sector
      (splice buf offset 32 (fatDirentBytes shortName attr firstCluster))

/-- The cluster of a directory that is not made after all. -/
def fatGiveBack (firstCluster : Nat) : FatM Unit := do
  let _ ← Eff.attempt (if firstCluster ≠ 0 then fatFreeChain sb firstCluster else pure ())

def fatNewNode (attr : UInt8) (sector offset firstCluster : Nat) : FatNode where
  firstCluster := firstCluster
  size := 0
  attr := attr
  dirSector := sector
  dirOffset := offset
  hasDirent := true

section Entry

variable (dir : FatNode) (shortName : List UInt8) (type : VnodeType) (attr : UInt8)
variable (sector offset firstCluster : Nat)

def fatEnterVnode (vn : Nat) : WorldM Nat := do
  match ← Eff.attempt (onFat (fatWriteEntry sb dir shortName type attr sector offset
      firstCluster)) with
  | .ok _ => pure vn
  | .error e => do
    vnodeUnref vn
    onFat (fatGiveBack sb firstCluster)
    Eff.fail e

def fatMakeVnode : WorldM Nat := do
  match ← Eff.attempt (onFat fatAllocVnode) with
  | .error e => do
    onFat (fatGiveBack sb firstCluster)
    Eff.fail e
  | .ok _ => do
    let vn ← vnodes.new ⟨1, fatNewNode attr sector offset firstCluster⟩
    fatEnterVnode sb dir shortName type attr sector offset firstCluster vn

end Entry

/-- `fat_create_vn` once it has a free slot. -/
def fatCreateVnodeAt (dir : FatNode) (shortName : List UInt8) (type : VnodeType)
    (sector offset : Nat) : WorldM Nat := do
  let firstCluster ← onFat (if type = .dir then fatAllocCluster sb else pure 0)
  let attr : UInt8 := if type = .dir then 0x10 else 0x20
  fatMakeVnode sb dir shortName type attr sector offset firstCluster

def fatCreate (dir : Nat) (name : List UInt8) (type : VnodeType) : WorldM Nat := do
  let d ← vnodes.load dir
  if d.node.isDir = false ∨ (type ≠ .file ∧ type ≠ .dir) then failWith .invalidArgument
  else do
    let shortName ← onFat (Eff.read fun _ => fatMakeShortName name)
    match ← Eff.attempt (fatLookup sb dir name) with
    | .ok existing => do
      vnodeUnref existing
      failWith .alreadyExists
    | .error e =>
      if e ≠ .code .notFound then Eff.fail e
      else do
        let slot ← onFat (fatFindFreeSlot sb d.node)
        fatCreateVnodeAt sb d.node shortName type slot.1 slot.2

/-- `fat_unlink_vn` with the vnode of the entry. -/
def fatRemove (node : FatNode) : FatM Unit := do
  (if node.isDir then do
    let nonempty ← fatIterDir sb fatEmptyCb node false
    if nonempty then Eff.fail .directoryNotEmpty else pure ()
  else pure ())
  toDisk fun d => do
    let buf ← fatReadSector sb d node.dirSector
    fatWriteSector sb d node.dirSector (update buf node.dirOffset 0xE5)
  if node.firstCluster ≠ 0 then fatFreeChain sb node.firstCluster else pure ()

def fatUnlink (dir : Nat) (name : List UInt8) : WorldM Unit := do
  let d ← vnodes.load dir
  if d.node.isDir = false then failWith .invalidArgument
  else do
    let vn ← fatLookup sb dir name
    let v ← vnodes.load vn
    let result ← Eff.attempt (onFat (fatRemove sb v.node))
    vnodeUnref vn
    match result with
    | .ok _ => pure ()
    | .error e => Eff.fail e

def vfsLookupComponent (dir : Nat) (name : List UInt8) : WorldM Nat := do
  let d ← vnodes.load dir
  if d.node.isDir = false then failWith .notDirectory else fatLookup sb dir name

def nextComponent (cursor : List UInt8) : WorldM (Option (List UInt8) × List UInt8) :=
  onFat (Eff.read fun _ => vfsNextComponent cursor)

def vfsLookupLoop : Nat → List UInt8 → Nat → WorldM Nat
  | 0, _, current => pure current
  | n + 1, cursor, current => do
    match ← nextComponent cursor with
    | (none, _) => pure current
    | (some name, rest) => do
      let next ← vfsLookupComponent sb current name
      vfsLookupLoop n rest next

/-- The last test of `vfs_lookup`. -/
def slashOnDirectory (path : List UInt8) (current : Nat) : WorldM Nat := do
  let c ← vnodes.load current
  if endsInSlash path = true ∧ c.node.isDir = false then failWith .notDirectory else pure current

def getRoot : WorldM Nat := Eff.read fun w => .ok w.root

def vfsLookup (path : List UInt8) : WorldM Nat :=
  if path = [] then failWith .invalidArgument
  else do
    let root ← getRoot
    let current ← vfsLookupLoop sb (path.length + 1) path root
    slashOnDirectory path current

def vfsResolveLoop : Nat → List UInt8 → Nat → WorldM (Nat × List UInt8)
  | 0, _, _ => failWith .invalidArgument
  | n + 1, cursor, current => do
    match ← nextComponent cursor with
    | (none, _) => failWith .invalidArgument
    | (some name, rest) =>
      if rest = [] then
        if isDotName name then failWith .invalidArgument
        else do
          onFat malloc
          pure (current, name)
      else do
        let next ← vfsLookupComponent sb current name
        vfsResolveLoop n rest next

def vfsResolveParentPath (path : List UInt8) : WorldM (Nat × List UInt8) :=
  if path = [] then failWith .invalidArgument
  else do
    let root ← getRoot
    vfsResolveLoop sb (path.length + 1) path root

def vfsCreateFile (path : List UInt8) : WorldM Nat :=
  if endsInSlash path then failWith .notDirectory
  else do
    let target ← vfsResolveParentPath sb path
    fatCreate sb target.1 target.2 .file

def vfsFindOrCreate (path : List UInt8) (create : Bool) : WorldM Nat := do
  match ← Eff.attempt (vfsLookup sb path) with
  | .ok vn => pure vn
  | .error e =>
    if e = .code .notFound ∧ create = true then vfsCreateFile sb path else Eff.fail e

/-- `vfs_open_vnode`, and `vfs_open` with its vnode. -/
def vfsOpenVnode (vn : Nat) : WorldM Nat := do
  onFat malloc
  vnodeRef vn
  files.new ⟨vn, 1⟩

def vfsOpen (path : List UInt8) (create : Bool) : WorldM Nat := do
  let vn ← vfsFindOrCreate sb path create
  vfsOpenVnode vn

def vfsClose (f : Nat) : WorldM Unit := do
  let x ← files.load f
  if 1 < x.refcount then files.store f fun x => { x with refcount := x.refcount - 1 }
  else do
    vnodeUnref x.vn
    files.release f

def vfsMkdir (path : List UInt8) : WorldM Unit := do
  let target ← vfsResolveParentPath sb path
  let parent ← vnodes.load target.1
  if parent.node.isDir = false then failWith .notDirectory
  else do
    let _ ← fatCreate sb target.1 target.2 .dir

def vfsUnlinkEntry (path : List UInt8) : WorldM Unit := do
  let target ← vfsResolveParentPath sb path
  let parent ← vnodes.load target.1
  if parent.node.isDir = false then failWith .notDirectory
  else fatUnlink sb target.1 target.2

def vfsUnlink (path : List UInt8) : WorldM Unit := do
  (if 1 < path.length ∧ endsInSlash path = true then do
    let target ← vfsLookup sb path
    let t ← vnodes.load target
    if t.node.isDir = false then failWith .notDirectory else pure ()
  else pure ())
  vfsUnlinkEntry sb path

end Code

/-! ## Vnodes that are left behind -/

variable {h h' h'' : Heap FatVnode} {p q : Prop} {x : FatVnode} {a : Nat}

/-- From `h` to `h'` the vnodes there were are as they were, and `handed` says whether a new one is
left. -/
structure Made (h h' : Heap FatVnode) (handed : Prop) : Prop where
  next_le : h.next ≤ h'.next
  old : ∀ a < h.next, h'.cell a = h.cell a
  counted : ∀ a x, h.next ≤ a → h'.cell a = some x → 0 < x.refcnt
  handed : (∃ a x, h.next ≤ a ∧ h'.cell a = some x) ↔ handed

theorem Made.congr (hm : Made h h' p) (hpq : p ↔ q) : Made h h' q := ⟨hm.1, hm.2, hm.3, hm.4.trans hpq⟩

theorem Made.trans (hp : Made h h' p) (hq : Made h' h'' q) : Made h h'' (p ∨ q) where
  next_le := hp.next_le.trans hq.next_le
  old a ha := (hq.old a (ha.trans_le hp.next_le)).trans (hp.old a ha)
  counted a x ha hx := by
    by_cases hmid : a < h'.next
    · exact hp.counted a x ha (by rw [← hq.old a hmid, hx])
    · exact hq.counted a x (not_lt.mp hmid) hx
  handed := by
    rw [← hp.handed, ← hq.handed]
    constructor
    · rintro ⟨a, x, ha, hx⟩
      by_cases hmid : a < h'.next
      · exact .inl ⟨a, x, ha, by rw [← hq.old a hmid, hx]⟩
      · exact .inr ⟨a, x, not_lt.mp hmid, hx⟩
    · rintro (⟨a, x, ha, hx⟩ | ⟨a, x, ha, hx⟩)
      · exact ⟨a, x, ha, by rw [hq.old a (Heap.lt_next hx), hx]⟩
      · exact ⟨a, x, hp.next_le.trans ha, hx⟩

theorem Made.push (h : Heap FatVnode) (hx : 0 < x.refcnt) : Made h (h.push x) True where
  next_le := Nat.le_succ _
  old a ha := by rw [Heap.cell_push, update_of_ne ha.ne]
  counted a y ha hy := by
    rcases update_at_iff.mp hy with ⟨-, ⟨⟩⟩ | ⟨-, hy⟩
    · exact hx
    · rw [h.cell_fresh a ha] at hy
      cases hy
  handed := iff_true_intro ⟨h.next, x, le_rfl, by rw [Heap.cell_push, update_self]⟩

theorem Made.released (hnext : h.next ≤ h'.next) (hcell : ∀ a, h'.cell a = h.cell a) :
    Made h h' False where
  next_le := hnext
  old a _ := hcell a
  counted a x ha hx := by
    rw [hcell, h.cell_fresh a ha] at hx
    cases hx
  handed := by
    refine iff_false_intro ?_
    rintro ⟨a, x, ha, hx⟩
    rw [hcell, h.cell_fresh a ha] at hx
    cases hx

theorem Made.refl (h : Heap FatVnode) : Made h h False := Made.released le_rfl fun _ => rfl

theorem Made.live {x : FatVnode} (hm : Made h h' p) (hx : h.cell a = some x) :
    h'.cell a = some x := by
  rw [hm.old a (Heap.lt_next hx), hx]

/-! ## What the functions do to the volume -/

/-- The outcome of a function on vnodes beside that of the function on nodes. -/
inductive Same {α β : Type} (R : α → β → Prop) :
    Except (Trap Errno) α → Except Errno β → Prop where
  | ok {a : α} {b : β} (h : R a b) : Same R (.ok a) (.ok b)
  | error (e : Errno) : Same R (.error (.code e)) (.error e)

/-- `m` does to the volume what `m₀` does, and leaves a vnode behind if `handed`. -/
def Lifts {α β : Type} (R : Heap FatVnode → α → β → Prop) (m : WorldM α) (m₀ : FatM β)
    (w : World) (handed : Prop) : Prop :=
  ∃ r h', m w = (r, { w with fat := (m₀ w.fat).2, vnodes := h' }) ∧ Made w.vnodes h' handed ∧
    Same (R h') r (m₀ w.fat).1

def Owns (h : Heap FatVnode) (a : Nat) (node : FatNode) : Prop := ∃ c, h.cell a = some ⟨c, node⟩

variable {α β γ δ : Type} {R : Heap FatVnode → α → β → Prop} {S : Heap FatVnode → γ → δ → Prop}
variable {m : WorldM α} {m₀ : FatM β} {f : α → WorldM γ} {f₀ : β → FatM δ} {w : World}

theorem Lifts.congr {p q : Prop} (hm : Lifts R m m₀ w p) (hpq : p ↔ q) : Lifts R m m₀ w q := by
  obtain ⟨r, h', hrun, hmade, hsame⟩ := hm
  exact ⟨r, h', hrun, hmade.congr hpq, hsame⟩

/-- The vnodes left by a sequence are those of its first step and of the second, if it comes to
it. -/
theorem Lifts.bind {q : β → Prop} (hm : Lifts R m m₀ w p)
    (hf : ∀ a b h', (m₀ w.fat).1 = .ok b → R h' a b → Made w.vnodes h' p →
      Lifts S (f a) (f₀ b) { w with fat := (m₀ w.fat).2, vnodes := h' } (q b)) :
    Lifts S (m >>= f) (m₀ >>= f₀) w (p ∨ ∃ b, (m₀ w.fat).1 = .ok b ∧ q b) := by
  obtain ⟨r, h', hrun, hmade, hsame⟩ := hm
  rcases hm₀ : m₀ w.fat with ⟨r₀, t⟩
  rw [hm₀] at hrun hsame hf
  cases hsame with
  | error e =>
    refine ⟨.error (.code e), h', by rw [bind_error hrun, bind_error hm₀], ?_,
      by rw [bind_error hm₀]; exact .error e⟩
    exact hmade.congr (by simp)
  | @ok a b hab =>
    obtain ⟨r', h'', hrun', hmade', hsame'⟩ := hf a b h' rfl hab hmade
    rw [← bind_ok (f := f₀) hm₀] at hrun' hsame'
    exact ⟨r', h'', by rw [bind_ok hrun, hrun'], (hmade.trans hmade').congr (by simp), hsame'⟩

theorem Lifts.pure {a : α} {b : β} (h : R w.vnodes a b) :
    Lifts R (Pure.pure a) (Pure.pure b) w False :=
  ⟨.ok a, w.vnodes, rfl, Made.refl _, .ok h⟩

theorem Lifts.fail (e : Errno) : Lifts R (failWith e) (Eff.fail e) w False :=
  ⟨.error (.code e), w.vnodes, rfl, Made.refl _, .error e⟩

theorem Lifts.onFat (m₀ : FatM α) : Lifts (fun _ a b => a = b) (Counted.onFat m₀) m₀ w False := by
  refine ⟨_, w.vnodes, rfl, Made.refl _, ?_⟩
  rcases (m₀ w.fat).1 with e | a
  · exact .error e
  · exact .ok rfl

theorem Lifts.load {node : FatNode} {f : FatVnode → WorldM γ} {f₀ : FatM δ}
    (ha : Owns w.vnodes a node) (hf : ∀ c, Lifts S (f ⟨c, node⟩) f₀ w p) :
    Lifts S (vnodes.load a >>= f) f₀ w p := by
  obtain ⟨c, hc⟩ := ha
  obtain ⟨r, h', hrun, hrest⟩ := hf c
  exact ⟨r, h', by rw [bind_ok (Field.load_run hc), hrun], hrest⟩

theorem Owns.made {node : FatNode} (ho : Owns h a node) (hm : Made h h' p) : Owns h' a node := by
  obtain ⟨c, hc⟩ := ho
  exact ⟨c, hm.live hc⟩

variable {sb : FatSuper} {dir : Nat} {d : FatNode} {name : List UInt8} {t : FatState} {e : Errno}

theorem onFat_ok {m₀ : FatM α} {a : α} (h : m₀ w.fat = (.ok a, t)) :
    onFat m₀ w = (.ok a, { w with fat := t }) := by
  rw [onFat, h]
  rfl

theorem onFat_error {m₀ : FatM α} (h : m₀ w.fat = (.error e, t)) :
    onFat m₀ w = (.error (.code e), { w with fat := t }) := by
  rw [onFat, h]
  rfl

theorem fatLookup_ok {node : FatNode} (hd : Owns w.vnodes dir d)
    (h₀ : fatLookupVn sb d name w.fat = (.ok node, t)) : fatLookup sb dir name w =
      (.ok w.vnodes.next, { w with fat := t, vnodes := w.vnodes.push ⟨1, node⟩ }) := by
  obtain ⟨c, hc⟩ := hd
  rw [fatLookup, bind_ok (Field.load_run hc), bind_ok (onFat_ok h₀)]
  rfl

theorem fatLookup_error (hd : Owns w.vnodes dir d)
    (h₀ : fatLookupVn sb d name w.fat = (.error e, t)) :
    fatLookup sb dir name w = (.error (.code e), { w with fat := t }) := by
  obtain ⟨c, hc⟩ := hd
  rw [fatLookup, bind_ok (Field.load_run hc), bind_error (onFat_error h₀)]

theorem Lifts.failed {h' : Heap FatVnode} (h₀ : m₀ w.fat = (.error e, t))
    (hrun : m w = (.error (.code e), { w with fat := t, vnodes := h' }))
    (hmade : Made w.vnodes h' False) : Lifts R m m₀ w ((m₀ w.fat).1.isOk = true) := by
  rw [Lifts, h₀]
  exact ⟨_, h', hrun, hmade.congr (by simp), .error e⟩

theorem Lifts.made {m : WorldM Nat} {m₀ : FatM FatNode} {node : FatNode}
    (h₀ : m₀ w.fat = (.ok node, t))
    (hrun : m w = (.ok w.vnodes.next, { w with fat := t, vnodes := w.vnodes.push ⟨1, node⟩ })) :
    Lifts Owns m m₀ w ((m₀ w.fat).1.isOk = true) := by
  rw [Lifts, h₀]
  refine ⟨_, _, hrun, (Made.push _ Nat.one_pos).congr (by simp), ?_⟩
  exact .ok ⟨1, by rw [Heap.cell_push, update_self]⟩

theorem fatLookup_lifts (hd : Owns w.vnodes dir d) :
    Lifts Owns (fatLookup sb dir name) (fatLookupVn sb d name) w
      ((fatLookupVn sb d name w.fat).1.isOk = true) := by
  rcases hrun : fatLookupVn sb d name w.fat with ⟨e | node, t⟩
  · rw [← hrun]
    exact Lifts.failed hrun (fatLookup_error hd hrun) (Made.refl _)
  · rw [← hrun]
    exact Lifts.made hrun (fatLookup_ok hd hrun)

theorem vfsLookupComponent_lifts (hd : Owns w.vnodes dir d) :
    Lifts Owns (vfsLookupComponent sb dir name) (Vfs.vfsLookupComponent sb d name) w
      ((Vfs.vfsLookupComponent sb d name w.fat).1.isOk = true) := by
  refine Lifts.load hd fun c => ?_
  rw [Vfs.vfsLookupComponent]
  split_ifs with hdir
  · exact (Lifts.fail _).congr (by simp [Eff.fail])
  · exact fatLookup_lifts hd

variable {cursor path : List UInt8} {n : Nat} {s : FatState} {g : Except Errno α}

/-- The walk from `node` finds its first component. -/
def FirstFound (sb : FatSuper) (node : FatNode) (cursor : List UInt8) (s : FatState) : Prop :=
  ∃ name rest, vfsNextComponent cursor = .ok (some name, rest) ∧
    (Vfs.vfsLookupComponent sb node name s).1.isOk = true

theorem Lifts.const {c : α} {f₀ : α → FatM δ} (hg : g = .ok c) (hf : Lifts S (f c) (f₀ c) w p) :
    Lifts S (Counted.onFat (Eff.read fun _ => g) >>= f) ((Eff.read fun _ => g) >>= f₀) w p := by
  subst hg
  exact hf

theorem Lifts.const_error {f₀ : α → FatM δ} (hg : g = .error e) :
    Lifts S (Counted.onFat (Eff.read fun _ => g) >>= f) ((Eff.read fun _ => g) >>= f₀) w False := by
  subst hg
  exact Lifts.fail e

theorem firstFound_iff {rest : List UInt8} (hc : vfsNextComponent cursor = .ok (some name, rest)) :
    FirstFound sb d cursor s ↔ (Vfs.vfsLookupComponent sb d name s).1.isOk = true := by
  simp [FirstFound, hc]

theorem not_firstFound (hc : ∀ name rest, vfsNextComponent cursor ≠ .ok (some name, rest)) :
    ¬ FirstFound sb d cursor s := by
  rintro ⟨name, rest, hsome, -⟩
  exact hc name rest hsome

theorem isOk_or_later {m₀ : FatM β} {q : β → Prop} :
    ((m₀ s).1.isOk = true ∨ ∃ b, (m₀ s).1 = .ok b ∧ q b) ↔ (m₀ s).1.isOk = true := by
  constructor
  · rintro (hok | ⟨b, hok, -⟩)
    · exact hok
    · rw [hok]
      rfl
  · exact .inl

theorem vfsLookupLoop_lifts (hd : Owns w.vnodes dir d) :
    Lifts Owns (vfsLookupLoop sb n cursor dir) (Vfs.vfsLookupLoop sb n cursor d) w
      (n ≠ 0 ∧ FirstFound sb d cursor w.fat) := by
  induction n generalizing cursor dir d w with
  | zero => exact (Lifts.pure hd).congr (by simp)
  | succ n ih =>
    rw [vfsLookupLoop, Vfs.vfsLookupLoop, nextComponent]
    cases hc : vfsNextComponent cursor with
    | error e =>
      have hnot : ¬ FirstFound sb d cursor w.fat := not_firstFound (by simp [hc])
      exact (Lifts.const_error rfl).congr (by simp [hnot])
    | ok c =>
      obtain ⟨_ | name, rest⟩ := c
      · have hnot : ¬ FirstFound sb d cursor w.fat := not_firstFound (by simp [hc])
        refine Lifts.const rfl ((Lifts.pure hd).congr ?_)
        simp [hnot]
      · refine Lifts.const rfl (Lifts.congr (Lifts.bind (vfsLookupComponent_lifts hd)
          (q := fun b => n ≠ 0 ∧ FirstFound sb b rest (Vfs.vfsLookupComponent sb d name w.fat).2)
          fun a b h' _ hab _ => ih hab) ?_)
        rw [isOk_or_later, firstFound_iff hc]
        simp

theorem slashOnDirectory_lifts (hd : Owns w.vnodes dir d) :
    Lifts Owns (slashOnDirectory path dir)
      (if endsInSlash path = true ∧ d.isDir = false then Eff.fail .notDirectory else pure d) w
      False := by
  refine Lifts.load hd fun c => ?_
  split_ifs
  · exact Lifts.fail _
  · exact Lifts.pure hd

def Rooted (sb : FatSuper) (w : World) : Prop := Owns w.vnodes w.root (fatRootNode sb)

theorem vfsLookup_lifts (path : List UInt8) (hroot : Rooted sb w) :
    Lifts Owns (vfsLookup sb path) (Vfs.vfsLookup sb path) w
      (FirstFound sb (fatRootNode sb) path w.fat) := by
  rw [vfsLookup, Vfs.vfsLookup]
  by_cases hnil : path = []
  · rw [if_pos hnil, if_pos hnil]
    have hnot : ¬ FirstFound sb (fatRootNode sb) path w.fat :=
      not_firstFound (by simp [hnil, vfsNextComponent])
    exact (Lifts.fail _).congr (by simp [hnot])
  · rw [if_neg hnil, if_neg hnil]
    have hwalk : Lifts Owns (vfsLookupLoop sb (path.length + 1) path w.root >>= slashOnDirectory path)
        (Vfs.vfsLookupLoop sb (path.length + 1) path (fatRootNode sb) >>= fun current =>
          if endsInSlash path = true ∧ current.isDir = false then Eff.fail .notDirectory
          else pure current) w _ :=
      Lifts.bind (vfsLookupLoop_lifts hroot) (q := fun _ => False)
        fun a b h' _ hab _ => slashOnDirectory_lifts hab
    exact hwalk.congr (by simp)

/-- The walk to the parent finds its first component: the path has a second one. -/
def ParentFound (sb : FatSuper) (node : FatNode) (cursor : List UInt8) (s : FatState) : Prop :=
  FirstFound sb node cursor s ∧ ∀ c, vfsNextComponent cursor = .ok c → c.2 ≠ []

theorem vfsResolveLoop_lifts (hd : Owns w.vnodes dir d) :
    Lifts (fun h a b => Owns h a.1 b.1 ∧ a.2 = b.2) (vfsResolveLoop sb n cursor dir)
      (Vfs.vfsResolveLoop sb n cursor d) w (n ≠ 0 ∧ ParentFound sb d cursor w.fat) := by
  induction n generalizing cursor dir d w with
  | zero => exact (Lifts.fail _).congr (by simp)
  | succ n ih =>
    rw [vfsResolveLoop, Vfs.vfsResolveLoop, nextComponent]
    cases hc : vfsNextComponent cursor with
    | error e =>
      have hnot : ¬ FirstFound sb d cursor w.fat := not_firstFound (by simp [hc])
      exact (Lifts.const_error rfl).congr (by simp [ParentFound, hnot])
    | ok c =>
      obtain ⟨_ | name, rest⟩ := c
      · have hnot : ¬ FirstFound sb d cursor w.fat := not_firstFound (by simp [hc])
        refine Lifts.const rfl ((Lifts.fail _).congr ?_)
        simp [ParentFound, hnot]
      refine Lifts.const rfl ?_
      dsimp only
      by_cases hrest : rest = []
      · have hnot : ¬ ParentFound sb d cursor w.fat := fun h => h.2 _ hc hrest
        rw [if_pos hrest, if_pos hrest]
        split_ifs
        · exact (Lifts.fail _).congr (by simp [hnot])
        · refine (Lifts.bind (q := fun _ => False) (Lifts.onFat malloc)
            fun _ _ h' _ _ hmade => Lifts.pure ⟨hd.made hmade, rfl⟩).congr ?_
          simp [hnot]
      · rw [if_neg hrest, if_neg hrest]
        refine (Lifts.bind (vfsLookupComponent_lifts hd)
          (q := fun b => n ≠ 0 ∧ ParentFound sb b rest (Vfs.vfsLookupComponent sb d name w.fat).2)
          fun a b h' _ hab _ => ih hab).congr ?_
        rw [isOk_or_later, ParentFound, firstFound_iff hc, hc]
        simp [hrest]

theorem vfsResolveParentPath_lifts (hroot : Rooted sb w) :
    Lifts (fun h a b => Owns h a.1 b.1 ∧ a.2 = b.2) (vfsResolveParentPath sb path)
      (Vfs.vfsResolveParentPath sb path) w (ParentFound sb (fatRootNode sb) path w.fat) := by
  rw [vfsResolveParentPath, Vfs.vfsResolveParentPath]
  by_cases hnil : path = []
  · rw [if_pos hnil, if_pos hnil]
    have hnot : ¬ FirstFound sb (fatRootNode sb) path w.fat :=
      not_firstFound (by simp [hnil, vfsNextComponent])
    exact (Lifts.fail _).congr (by simp [ParentFound, hnot])
  · rw [if_neg hnil, if_neg hnil]
    have hwalk : Lifts _ (vfsResolveLoop sb (path.length + 1) path w.root)
        (Vfs.vfsResolveLoop sb (path.length + 1) path (fatRootNode sb)) w _ :=
      vfsResolveLoop_lifts hroot
    exact hwalk.congr (by simp)

/-! ## Entries that are made and removed -/

section Release

variable {vn : Nat} {node : FatNode}

theorem vnodeUnref_last (hx : w.vnodes.cell vn = some ⟨1, node⟩) :
    ∃ h', vnodeUnref vn w = (.ok (), { w with vnodes := h' }) ∧ h'.next = w.vnodes.next ∧
      h'.cell = update w.vnodes.cell vn none := by
  have hedit : (w.vnodes.edit vn fun v => { v with refcnt := v.refcnt - 1 }).cell vn =
      some ⟨0, node⟩ := by
    rw [Heap.cell_edit hx, update_self]
    rfl
  refine ⟨(w.vnodes.edit vn fun v => { v with refcnt := v.refcnt - 1 }).free vn, ?_, rfl, ?_⟩
  · rw [vnodeUnref, bind_ok (Field.load_run hx), if_neg Nat.one_ne_zero,
      bind_ok (Field.store_run hx _), if_pos (Nat.sub_self 1)]
    exact Field.release_run (l := vnodes) hedit
  · rw [Heap.cell_free, Heap.cell_edit hx, update_idem]

theorem vnodeUnref_pushed (w : World) (t : FatState) (node : FatNode) :
    ∃ h', vnodeUnref w.vnodes.next { w with fat := t, vnodes := w.vnodes.push ⟨1, node⟩ } =
        (.ok (), { w with fat := t, vnodes := h' }) ∧ Made w.vnodes h' False := by
  have hpush : (w.vnodes.push ⟨1, node⟩).cell w.vnodes.next = some ⟨1, node⟩ := by
    rw [Heap.cell_push, update_self]
  obtain ⟨h', hrun, hnext, hcell⟩ :=
    vnodeUnref_last (w := { w with fat := t, vnodes := w.vnodes.push ⟨1, node⟩ }) hpush
  refine ⟨h', hrun, Made.released (hnext ▸ Nat.le_succ _) fun a => ?_⟩
  rw [hcell, Heap.cell_push, update_idem]
  by_cases ha : a = w.vnodes.next
  · rw [ha, update_self, Heap.cell_next]
  · rw [update_of_ne ha]

end Release

theorem Lifts.step {m₀ : FatM α} {f₀ : α → FatM δ} {a : α} (h₀ : m₀ w.fat = (.ok a, t))
    (hf : Lifts S (f a) (f₀ a) { w with fat := t } ((f₀ a t).1.isOk = true)) :
    Lifts S (Counted.onFat m₀ >>= f) (m₀ >>= f₀) w (((m₀ >>= f₀) w.fat).1.isOk = true) := by
  rw [Lifts, bind_ok (onFat_ok h₀), bind_ok h₀]
  exact hf

theorem Lifts.attempted {f : Except (Trap Errno) α → WorldM γ}
 {f₀ : Except Errno β → FatM δ} (h₀ : m₀ w.fat = (.error e, t))
    (hrun : m w = (.error (.code e), { w with fat := t }))
    (hf : Lifts S (f (.error (.code e))) (f₀ (.error e)) { w with fat := t }
      ((f₀ (.error e) t).1.isOk = true)) :
    Lifts S (Eff.attempt m >>= f) (Eff.attempt m₀ >>= f₀) w
      (((Eff.attempt m₀ >>= f₀) w.fat).1.isOk = true) := by
  rw [Lifts, bind_ok (attempt_run hrun), bind_ok (attempt_run h₀)]
  exact hf

section Create

variable {shortName : List UInt8} {type : VnodeType} {sector offset firstCluster : Nat}

theorem fatCreateAt_run {u : FatState} {r : Except Errno Unit}
    (hfirst : (if type = .dir then fatAllocCluster sb else pure 0 : FatM Nat) s =
      (.ok firstCluster, t))
    (hentry : fatCreateEntry sb d shortName type (if type = .dir then 0x10 else 0x20) sector offset
      firstCluster t = (r, u)) :
    fatCreateAt sb d shortName type sector offset s = (match r with
      | .ok _ => (.ok (fatNewNode (if type = .dir then 0x10 else 0x20) sector offset firstCluster), u)
      | .error e => (.error e, (fatGiveBack sb firstCluster u).2)) := by
  rw [fatCreateAt, bind_ok hfirst, bind_ok (attempt_run hentry)]
  cases r <;> rfl

theorem fatMakeVnode_lifts
    (hfirst : (if type = .dir then fatAllocCluster sb else pure 0 : FatM Nat) w.fat =
      (.ok firstCluster, t)) :
    Lifts Owns (fatCreateVnodeAt sb d shortName type sector offset)
      (fatCreateAt sb d shortName type sector offset) w
      ((fatCreateAt sb d shortName type sector offset w.fat).1.isOk = true) := by
  have hmake := bind_ok (onFat_ok hfirst) (f := fatMakeVnode sb d shortName type
    (if type = .dir then 0x10 else 0x20) sector offset)
  rcases halloc : fatAllocVnode t with ⟨e | u, t'⟩
  · refine Lifts.failed (fatCreateAt_run hfirst (bind_error halloc)) (hmake.trans ?_) (Made.refl _)
    rw [fatMakeVnode, bind_ok (attempt_run (onFat_error halloc))]
    rfl
  rcases hwrite : fatWriteEntry sb d shortName type (if type = .dir then 0x10 else 0x20) sector
    offset firstCluster t' with ⟨e | u', t''⟩
  · obtain ⟨h', hunref, hmade⟩ := vnodeUnref_pushed w t''
      (fatNewNode (if type = .dir then 0x10 else 0x20) sector offset firstCluster)
    refine Lifts.failed (fatCreateAt_run hfirst ((bind_ok halloc).trans hwrite)) (hmake.trans ?_)
      hmade
    rw [fatMakeVnode, bind_ok (attempt_run (onFat_ok halloc))]
    refine (bind_ok rfl).trans ?_
    rw [fatEnterVnode, bind_ok (attempt_run (onFat_error hwrite))]
    exact (bind_ok hunref).trans rfl
  · refine Lifts.made (fatCreateAt_run hfirst ((bind_ok halloc).trans hwrite)) (hmake.trans ?_)
    rw [fatMakeVnode, bind_ok (attempt_run (onFat_ok halloc))]
    refine (bind_ok rfl).trans ?_
    rw [fatEnterVnode, bind_ok (attempt_run (onFat_ok hwrite))]
    rfl

theorem fatCreateVnodeAt_lifts : Lifts Owns (fatCreateVnodeAt sb d shortName type sector offset)
    (fatCreateAt sb d shortName type sector offset) w
    ((fatCreateAt sb d shortName type sector offset w.fat).1.isOk = true) := by
  rcases hfirst : (if type = .dir then fatAllocCluster sb else pure 0 : FatM Nat) w.fat with
    ⟨e | first, t⟩
  · exact Lifts.failed (bind_error hfirst) (bind_error (onFat_error hfirst)) (Made.refl _)
  · exact fatMakeVnode_lifts hfirst

theorem fatCreateSlot_lifts :
    Lifts Owns (onFat (fatFindFreeSlot sb d) >>= fun slot =>
        fatCreateVnodeAt sb d shortName type slot.1 slot.2)
      (fatFindFreeSlot sb d >>= fun slot => fatCreateAt sb d shortName type slot.1 slot.2) w
      (((fatFindFreeSlot sb d >>= fun slot =>
        fatCreateAt sb d shortName type slot.1 slot.2) w.fat).1.isOk = true) := by
  rcases hslot : fatFindFreeSlot sb d w.fat with ⟨e | slot, t⟩
  · exact Lifts.failed (bind_error hslot) (bind_error (onFat_error hslot)) (Made.refl _)
  · exact Lifts.step hslot fatCreateVnodeAt_lifts

theorem fatCreate_lifts (hd : Owns w.vnodes dir d) :
    Lifts Owns (fatCreate sb dir name type) (fatCreateVn sb d name type) w
      ((fatCreateVn sb d name type w.fat).1.isOk = true) := by
  refine Lifts.load hd fun c => ?_
  rw [fatCreateVn]
  by_cases hbad : d.isDir = false ∨ (type ≠ .file ∧ type ≠ .dir)
  · rw [if_pos hbad, if_pos hbad]
    exact Lifts.failed rfl rfl (Made.refl _)
  rw [if_neg hbad, if_neg hbad]
  cases hname : fatMakeShortName name with
  | error e => exact Lifts.failed rfl rfl (Made.refl _)
  | ok shortName =>
    refine Lifts.const rfl (Lifts.congr ?_ Iff.rfl)
    rcases hlook : fatLookupVn sb d name w.fat with ⟨e | node, t⟩
    · refine Lifts.attempted hlook (fatLookup_error hd hlook) ?_
      dsimp only
      by_cases hnone : e = .notFound
      · rw [if_neg (by simpa using hnone), if_neg (by simpa using hnone)]
        exact fatCreateSlot_lifts
      · rw [if_pos (by simpa using hnone), if_pos hnone]
        exact Lifts.failed rfl rfl (Made.refl _)
    · obtain ⟨h', hunref, hmade⟩ := vnodeUnref_pushed w t node
      refine Lifts.failed (bind_ok (attempt_run hlook)) ?_ hmade
      rw [bind_ok (attempt_run (fatLookup_ok hd hlook))]
      dsimp only
      rw [bind_ok hunref]
      rfl

end Create

theorem fatUnlink_lifts (hd : Owns w.vnodes dir d) :
    Lifts (fun _ _ _ => True) (fatUnlink sb dir name) (fatUnlinkVn sb d name) w False := by
  refine Lifts.load hd fun c => ?_
  rw [fatUnlinkVn]
  split_ifs with hdir
  · exact Lifts.fail _
  rcases hlook : fatLookupVn sb d name w.fat with ⟨e | node, t⟩
  · rw [Lifts, bind_error hlook, bind_error (fatLookup_error hd hlook)]
    exact ⟨_, w.vnodes, rfl, Made.refl _, .error e⟩
  · obtain ⟨h', hunref, hmade⟩ := vnodeUnref_pushed w (fatRemove sb node t).2 node
    have hpush : (w.vnodes.push ⟨1, node⟩).cell w.vnodes.next = some ⟨1, node⟩ := by
      rw [Heap.cell_push, update_self]
    have hload : (vnodes.load w.vnodes.next : WorldM FatVnode)
        { w with fat := t, vnodes := w.vnodes.push ⟨1, node⟩ } = (.ok ⟨1, node⟩, _) :=
      Field.load_run hpush
    have hremove : Eff.attempt (onFat (fatRemove sb node))
        { w with fat := t, vnodes := w.vnodes.push ⟨1, node⟩ } =
          (.ok ((fatRemove sb node t).1.mapError .code), { w with
            fat := (fatRemove sb node t).2
            vnodes := w.vnodes.push ⟨1, node⟩ }) := rfl
    rw [Lifts, bind_ok hlook, bind_ok (fatLookup_ok hd hlook), bind_ok hload, bind_ok hremove,
      bind_ok hunref]
    change ∃ r h'', _ = _ ∧ Made _ h'' _ ∧ Same _ r (fatRemove sb node t).1
    rcases (fatRemove sb node t).1 with e | u
    · exact ⟨_, h', rfl, hmade, .error e⟩
    · exact ⟨_, h', rfl, hmade, .ok trivial⟩

/-! ## Paths to a vnode that may be made -/

theorem bind_isOk : ((m₀ >>= f₀) s).1.isOk = true ↔
    ∃ b, (m₀ s).1 = .ok b ∧ (f₀ b (m₀ s).2).1.isOk = true := by
  rw [bind_run]
  rcases m₀ s with ⟨e | b, t⟩
  · simp
  · simp

theorem vfsCreateFile_lifts (path : List UInt8) (hroot : Rooted sb w) :
    Lifts Owns (vfsCreateFile sb path) (Vfs.vfsCreateFile sb path) w
      (endsInSlash path = false ∧ ParentFound sb (fatRootNode sb) path w.fat ∨
        (Vfs.vfsCreateFile sb path w.fat).1.isOk = true) := by
  rw [vfsCreateFile, Vfs.vfsCreateFile]
  by_cases hslash : endsInSlash path = true
  · rw [if_pos hslash, if_pos hslash]
    exact (Lifts.fail _).congr (by simp [hslash, Eff.fail])
  · rw [if_neg hslash, if_neg hslash]
    refine Lifts.congr (Lifts.bind (vfsResolveParentPath_lifts hroot)
      (q := fun b => (fatCreateVn sb b.1 b.2 .file (Vfs.vfsResolveParentPath sb path w.fat).2).1.isOk
        = true)
      fun a b h' _ hab _ => hab.2 ▸ fatCreate_lifts hab.1) ?_
    rw [bind_isOk]
    simp [hslash]

def fatSearch (sb : FatSuper) (dir : FatNode) (name : List UInt8) (disk : Disk) :
    Except Errno (Option FatNode) :=
  if dir.firstCluster = 0 ∧ sb.type ≠ .fat32 then
    fatIterRoot sb (fatLookupCb name) disk sb.rootDirSectors 0 0 none
  else fatIterChain sb (fatLookupCb name) disk sb.clusterCount dir.firstCluster none

theorem fatLookupVn_cases (sb : FatSuper) (d : FatNode) (name : List UInt8) (s : FatState) :
    ∃ r mem, fatLookupVn sb d name s = (r, { s with mem }) ∧
    (r.isOk = true → ∃ node, fatSearch sb d name s.disk = .ok (some node)) ∧
    (r = .error .notFound → ∀ node, fatSearch sb d name s.disk ≠ .ok (some node)) := by
  rw [fatLookupVn]
  split_ifs with hdir
  · exact ⟨.error .invalidArgument, s.mem, rfl, by simp, by simp⟩
  obtain ⟨mem, hm | hm⟩ := malloc_cases s
  · have hiter : fatIterDir sb (fatLookupCb name) d none s =
        (fatSearch sb d name s.disk, { s with mem }) := bind_ok hm
    rcases hsearch : fatSearch sb d name s.disk with e | _ | node
    · exact ⟨.error e, mem, by rw [bind_error (hiter.trans (by rw [hsearch]))],
        by simp, by simp⟩
    · exact ⟨.error .notFound, mem, by rw [bind_ok (hiter.trans (by rw [hsearch]))]; rfl,
        by simp, by simp⟩
    · obtain ⟨mem', hvn | hvn⟩ := FatSuper.fatAllocVnode_cases { s with mem }
      · refine ⟨.ok node, mem', ?_, fun _ => ⟨node, rfl⟩, by simp⟩
        rw [bind_ok (hiter.trans (by rw [hsearch]))]
        exact bind_ok hvn
      · refine ⟨.error .outOfMemory, mem', ?_, by simp, by simp⟩
        rw [bind_ok (hiter.trans (by rw [hsearch]))]
        exact bind_error hvn
  · refine ⟨.error .outOfMemory, mem, ?_, by simp, by simp⟩
    exact bind_error (bind_error hm)

/-- What the root directory does not have for `vfs_lookup`, it does not have for the walk that
follows: the disk is the same. -/
theorem vfsLookupComponent_again (h : Vfs.vfsLookupComponent sb d name s = (.error .notFound, t)) :
    (Vfs.vfsLookupComponent sb d name t).1.isOk = false := by
  rw [Vfs.vfsLookupComponent] at h ⊢
  split_ifs at h ⊢ with hdir
  · rfl
  obtain ⟨r, mem, hrun, -, hnot⟩ := fatLookupVn_cases sb d name s
  obtain ⟨rfl, rfl⟩ := Prod.mk.inj (hrun.symm.trans h)
  obtain ⟨r', mem', hrun', hok', -⟩ :=
    fatLookupVn_cases sb d name { s with mem }
  rw [hrun', ← Bool.not_eq_true]
  intro hok
  obtain ⟨node, hnode⟩ := hok' hok
  exact hnot rfl node hnode

theorem firstFound_before_create (h : Vfs.vfsLookup sb path s = (.error .notFound, t))
    (hf : FirstFound sb (fatRootNode sb) path t) : FirstFound sb (fatRootNode sb) path s := by
  obtain ⟨name, rest, hc, hok⟩ := hf
  refine ⟨name, rest, hc, ?_⟩
  have hne : path ≠ [] := by
    rintro rfl
    simp [vfsNextComponent] at hc
  by_contra hno
  rcases hlook : Vfs.vfsLookupComponent sb (fatRootNode sb) name s with ⟨e | node, u⟩
  · have hloop : Vfs.vfsLookupLoop sb (path.length + 1) path (fatRootNode sb) s = (.error e, u) := by
      rw [Vfs.vfsLookupLoop, hc]
      exact (bind_ok (a := (some name, rest)) (t := s) rfl).trans (bind_error hlook)
    rw [Vfs.vfsLookup, if_neg hne, bind_error hloop] at h
    cases h
    rw [vfsLookupComponent_again hlook] at hok
    cases hok
  · rw [hlook] at hno
    exact hno rfl

/-- `vfs_open` leaves a vnode behind if its walk finds a first component, or if it creates. -/
def OpenHands (sb : FatSuper) (path : List UInt8) (create : Bool) (s : FatState) : Prop :=
  FirstFound sb (fatRootNode sb) path s ∨
  ∃ t, Vfs.vfsLookup sb path s = (.error .notFound, t) ∧ create = true ∧
    (Vfs.vfsCreateFile sb path t).1.isOk = true

theorem vfsFindOrCreate_lifts {create : Bool} (hroot : Rooted sb w) :
    Lifts Owns (vfsFindOrCreate sb path create) (Vfs.vfsFindOrCreate sb path create) w
      (OpenHands sb path create w.fat) := by
  obtain ⟨r, h', hrun, hmade, hsame⟩ := vfsLookup_lifts path hroot
  rcases h₀ : Vfs.vfsLookup sb path w.fat with ⟨r₀, t⟩
  rw [h₀] at hrun hsame
  rw [Lifts, vfsFindOrCreate, Vfs.vfsFindOrCreate, bind_ok (attempt_run hrun),
    bind_ok (attempt_run h₀)]
  cases hsame with
  | @ok a node hab =>
    refine ⟨.ok a, h', rfl, hmade.congr ?_, .ok hab⟩
    simp [OpenHands, h₀]
  | error e =>
    dsimp only
    by_cases hcreate : e = .notFound ∧ create = true
    · obtain ⟨rfl, rfl⟩ := hcreate
      have hroot' : Rooted sb { w with fat := t, vnodes := h' } := Owns.made hroot hmade
      obtain ⟨r', h'', hrun', hmade', hsame'⟩ := vfsCreateFile_lifts path hroot'
      rw [if_pos ⟨rfl, rfl⟩, if_pos ⟨rfl, rfl⟩]
      refine ⟨r', h'', hrun', (hmade.trans hmade').congr ?_, hsame'⟩
      constructor
      · rintro (hfound | ⟨-, hparent⟩ | hok)
        · exact .inl hfound
        · exact .inl (firstFound_before_create h₀ hparent.1)
        · exact .inr ⟨t, h₀, rfl, hok⟩
      · rintro (hfound | ⟨t', ht', -, hok⟩)
        · exact .inl hfound
        · cases h₀.symm.trans ht'
          exact .inr (.inr hok)
    · have hcreate' : ¬ (Trap.code e = .code .notFound ∧ create = true) := by simpa using hcreate
      rw [if_neg hcreate, if_neg hcreate']
      refine ⟨_, h', rfl, hmade.congr ?_, .error e⟩
      constructor
      · exact .inl
      · rintro (hfound | ⟨t', ht', hc, -⟩)
        · exact hfound
        · cases h₀.symm.trans ht'
          exact absurd ⟨rfl, hc⟩ hcreate

end CfKernel.Vfs.Counted
