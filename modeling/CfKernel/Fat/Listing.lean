import CfKernel.Fat.RunWellFormed

/-!
# One directory before and after

`fat_readdir_vn`, and what creating and unlinking a name do to what a directory looks up and lists.
The directory stands alone here: nothing is asked of the rest of the volume.
-/

namespace CfKernel.Fat

open Lib Lib.Eff

def direntType (de : FatDirent) : VnodeType := if de.attr &&& 0x10 ≠ 0 then .dir else .file

/-- `fat_readdir_cb`: the context is `cur` and what was found. -/
def fatReaddirCb (want : Nat) : DirCallback (Nat × Option (List UInt8 × VnodeType)) :=
  fun de name _ _ ctx =>
    if ctx.1 = want then (true, ctx.1, some (name, direntType de)) else (false, ctx.1 + 1, ctx.2)

def fatReaddirVn (sb : FatSuper) (dir : FatNode) (index : Nat) : FatM (List UInt8 × VnodeType) :=
  if dir.isDir = false then Eff.fail .invalidArgument
  else do
    match (← fatIterDir sb (fatReaddirCb index) dir (0, none)).2 with
    | none => Eff.fail .notFound
    | some entry => pure entry

def listed (d : Disk) (a : Nat) : List UInt8 × VnodeType :=
  (entryName d a, direntType (direntAt d a))

theorem scanSlots_readdir (d : Disk) (l : List Nat) (cur k : Nat) :
    (scanSlots (fatReaddirCb (cur + k)) d l (cur, none)).ctx.2 =
      (liveSlots d l)[k]?.map (listed d) := by
  induction l generalizing cur k with
  | nil => rfl
  | cons a l ih =>
    simp only [scanSlots, fatVisit_eq, liveSlots]
    split_ifs with h0 h1
    · rfl
    · cases k with
      | zero =>
        simp only [fatReaddirCb, Nat.add_zero, if_true, List.getElem?_cons_zero, Option.map_some,
          Scan.ctx]
        rfl
      | succ k =>
        simp only [fatReaddirCb, show ¬ cur = cur + (k + 1) by omega, if_false,
          List.getElem?_cons_succ]
        rw [show cur + (k + 1) = cur + 1 + k by omega]
        exact ih (cur + 1) k
    · exact ih cur k

/-- The state with a heap that does not run out. -/
def plenty (s : FatState) : FatState := { s with mem := fun _ => true }

namespace FatSuper

variable {sb : FatSuper} {d d' : Disk} {s t : FatState} {dir node : FatNode} {a b c n : Nat}
variable {slots slots' : List Nat} {name sn : List UInt8}

theorem fatIterDir_plenty {γ : Type} (cb : DirCallback γ) (ctx : γ)
    (h : sb.DirSlots s.disk dir.firstCluster slots) :
    fatIterDir sb cb dir ctx (plenty s) =
      (.ok (scanSlots cb s.disk slots ctx).ctx, plenty s) := by
  rw [fatIterDir, bind_ok (show malloc (plenty s) = (.ok (), plenty s) from rfl)]
  exact onDisk_run (fatIterDir_disk cb ctx h)

theorem fatLookupVn_plenty (name : List UInt8) (hdir : dir.isDir = true)
    (h : sb.DirSlots s.disk dir.firstCluster slots) :
    (fatLookupVn sb dir name (plenty s)).1 =
      match (liveSlots s.disk slots).find? fun a => strcasecmpEq (entryName s.disk a) name with
      | none => .error .notFound
      | some a => .ok (nodeAt s.disk a) := by
  have hit := fatIterDir_plenty (fatLookupCb name) none h
  rw [scanSlots_lookup] at hit
  rw [fatLookupVn, if_neg (by simp [hdir]), bind_ok hit]
  cases (liveSlots s.disk slots).find? fun a => strcasecmpEq (entryName s.disk a) name with
  | none => rfl
  | some a => rfl

theorem fatReaddirVn_plenty (index : Nat) (hdir : dir.isDir = true)
    (h : sb.DirSlots s.disk dir.firstCluster slots) :
    (fatReaddirVn sb dir index (plenty s)).1 =
      match ((liveSlots s.disk slots).map (listed s.disk))[index]? with
      | none => .error .notFound
      | some entry => .ok entry := by
  have hit := fatIterDir_plenty (fatReaddirCb index) (0, none) h
  have hscan := scanSlots_readdir s.disk slots 0 index
  rw [Nat.zero_add] at hscan
  rw [fatReaddirVn, if_neg (by simp [hdir]), bind_ok hit, List.getElem?_map, ← hscan]
  cases (scanSlots (fatReaddirCb index) s.disk slots (0, none)).ctx.2 with
  | none => rfl
  | some entry => rfl

variable (sb) in
/-- `fat_lookup_vn` finds the name when memory does not run out. -/
def LooksUp (dir : FatNode) (s : FatState) (name : List UInt8) : Prop :=
  (fatLookupVn sb dir name (plenty s)).1.isOk = true

variable (sb) in
/-- `fat_readdir_vn` enumerates these entries when memory does not run out. -/
def Lists (dir : FatNode) (s : FatState) (entries : List (List UInt8 × VnodeType)) : Prop :=
  ∀ index, (fatReaddirVn sb dir index (plenty s)).1 =
    match entries[index]? with
    | none => .error .notFound
    | some entry => .ok entry

theorem looksUp_iff (hdir : dir.isDir = true) (h : sb.DirSlots s.disk dir.firstCluster slots)
    (name : List UInt8) : sb.LooksUp dir s name ↔
      ∃ a ∈ liveSlots s.disk slots, strcasecmpEq (entryName s.disk a) name = true := by
  rw [LooksUp, fatLookupVn_plenty name hdir h, ← List.find?_isSome]
  cases (liveSlots s.disk slots).find? fun a => strcasecmpEq (entryName s.disk a) name with
  | none => simp [Except.isOk, Except.toBool]
  | some a => simp [Except.isOk, Except.toBool]

theorem lists_liveSlots (hdir : dir.isDir = true) (h : sb.DirSlots s.disk dir.firstCluster slots) :
    sb.Lists dir s ((liveSlots s.disk slots).map (listed s.disk)) := fun index =>
  fatReaddirVn_plenty index hdir h

/-- A directory with its slots, in which nothing follows an end mark. -/
structure DirWellFormed (sb : FatSuper) (d : Disk) (c : Nat) (slots : List Nat) : Prop where
  dir : sb.DirSlots d c slots
  tail : ∀ pre a post, slots = pre ++ a :: post → d a = 0 → ∀ b ∈ post, d b = 0

theorem DirWellFormed.cleanTail (h : sb.DirWellFormed d c slots) : CleanTail d slots := by
  intro pre a post heq _ ha
  cases post with
  | nil => rfl
  | cons b post => rw [liveSlots, if_pos (h.tail pre a _ heq ha b (by simp))]

theorem listed_congr (h : ∀ k < 32, d' (a + k) = d (a + k)) : listed d' a = listed d a := by
  rw [listed, listed, entryName, entryName, direntAt_congr h]

/-- What a successful `fat_create_vn` leaves of its directory. -/
structure Created (sb : FatSuper) (d d' : Disk) (c : Nat) (slots slots' : List Nat) (a : Nat)
    (sn : List UInt8) (type : VnodeType) : Prop where
  dir : sb.DirSlots d' c slots'
  fresh : a ∉ liveSlots d slots
  perm : (liveSlots d' slots').Perm (a :: liveSlots d slots)
  entry : listed d' a = (fatNameToStr sn, type)
  others : ∀ b ∈ liveSlots d slots, ∀ k < 32, d' (b + k) = d (b + k)

theorem SlotFilled.created {d₁ : Disk} {x : Nat} {slots₁ : List Nat} {type : VnodeType}
    (h : sb.SlotFilled d₁ d' slots₁ a sn x (createAttr type)) (hs : sb.DirSlots d₁ c slots₁)
    (htype : type = .file ∨ type = .dir) (hlive : liveSlots d₁ slots₁ = liveSlots d slots)
    (hsame : ∀ b ∈ liveSlots d slots, ∀ k < 32, d₁ (b + k) = d (b + k)) :
    sb.Created d d' c slots slots₁ a sn type := by
  have hfresh : ∀ b ∈ liveSlots d slots, b ≠ a := by
    rintro b hb rfl
    rw [← hlive] at hb
    obtain ⟨h0, hl⟩ := live_of_mem_liveSlots hb
    have hfree := h.slot_free
    rw [slotIsFree_eq_false.mpr ⟨h0, (slotLive_iff.mp hl).1⟩] at hfree
    cases hfree
  refine ⟨hs.congr fun l hl y hy => h.fat_old hl hy, fun ha => hfresh a ha rfl, ?_, ?_, ?_⟩
  · obtain ⟨p, q, heq, heq'⟩ := h.liveSlots_eq
    rw [heq', ← hlive, heq]
    exact List.perm_middle
  · have hattr : (direntAt d' a).attr = createAttr type := congrArg FatNode.attr h.node_eq
    rw [listed, h.name_eq, direntType, hattr]
    rcases htype with rfl | rfl <;> rfl
  · intro b hb k hk
    have hb₁ : b ∈ slots₁ := mem_of_mem_liveSlots (hlive ▸ hb)
    rw [h.slot_byte hs hb₁ (hfresh b hb) hk, hsame b hb k hk]

theorem fatCreateVn_created {type : VnodeType} (h : sb.DirWellFormed s.disk dir.firstCluster slots)
    (hname : fatMakeShortName name = .ok sn)
    (hrun : fatCreateVn sb dir name type s = (.ok node, t)) :
    dir.isDir = true ∧ ∃ slots' a,
      sb.Created s.disk t.disk dir.firstCluster slots slots' a sn type := by
  obtain ⟨r, t', hrun', -, hr⟩ := fatCreateVn_spec name type h.dir
  rw [hrun] at hrun'
  cases hrun'
  obtain ⟨d₁, a, sn', x, htaken, hsn, -, hkind, -, hadd⟩ := hr
  cases hname.symm.trans hsn
  have hdir : dir.isDir = true := by
    by_contra hnot
    rw [fatCreateVn, if_pos (.inl (by simpa using hnot))] at hrun
    cases hrun
  obtain ⟨-, slots', hs', hfirst, hclean, hlive, hsame⟩ := htaken.ready h.dir h.cleanTail
  have hfilled : sb.SlotFilled d₁ t.disk slots' a sn x (createAttr type) := by
    refine ⟨⟨_, hs'⟩, hfirst, hclean, ⟨name, hname⟩, ⟨_, hadd⟩, ?_⟩
    rcases hkind with ⟨rfl, rfl⟩ | ⟨rfl, hx⟩
    · exact .inr ⟨rfl, rfl⟩
    · exact .inl ⟨rfl, hx⟩
  exact ⟨hdir, slots', a, hfilled.created hs' (hkind.imp And.left And.left) hlive hsame⟩

theorem fatIterDir_mem {γ : Type} (sb : FatSuper) (cb : DirCallback γ) (ctx : γ) (node : FatNode)
    (s : FatState) : ∃ r mem, fatIterDir sb cb node ctx s = (r, { s with mem := mem }) := by
  obtain ⟨mem, hm | hm⟩ := malloc_cases s
  · exact ⟨_, mem, by rw [fatIterDir, bind_ok hm]; rfl⟩
  · exact ⟨_, mem, by rw [fatIterDir, bind_error hm]⟩

theorem fatEmptyTest_mem (sb : FatSuper) (node : FatNode) (s : FatState) :
    ∃ r mem, (if node.isDir then do
        let nonempty ← fatIterDir sb fatEmptyCb node false
        if nonempty then Eff.fail .directoryNotEmpty else pure ()
      else pure () : FatM Unit) s = (r, { s with mem := mem }) := by
  split
  · obtain ⟨r, mem, hrun⟩ := fatIterDir_mem sb fatEmptyCb false node s
    cases r with
    | error e => exact ⟨_, mem, bind_error hrun⟩
    | ok nonempty =>
      rw [bind_ok hrun]
      split
      · exact ⟨_, mem, rfl⟩
      · exact ⟨_, mem, rfl⟩
  · exact ⟨_, s.mem, rfl⟩

theorem fatUnlinkVn_removed (h : sb.DirSlots s.disk dir.firstCluster slots)
    (hrun : fatUnlinkVn sb dir name s = (.ok (), t)) :
    dir.isDir = true ∧ ∃ a, (liveSlots s.disk slots).find?
        (fun a => strcasecmpEq (entryName s.disk a) name) = some a ∧ t.disk a = 0xE5 ∧
      (∀ b, sb.rootDirStart * 512 ≤ b → b ≠ a → t.disk b = s.disk b) ∧
      ∀ l, sb.Chain s.disk (nodeAt s.disk a).firstCluster l →
        sb.EntryRemoved s.disk t.disk a l := by
  have hdir : dir.isDir = true := by
    by_contra hnot
    rw [fatUnlinkVn, if_pos (by simpa using hnot)] at hrun
    cases hrun
  refine ⟨hdir, ?_⟩
  rw [fatUnlinkVn, if_neg (by simp [hdir])] at hrun
  obtain ⟨mem, ⟨a, hfind, hlook⟩ | ⟨-, hlook⟩ | hlook⟩ := fatLookupVn_spec name hdir h
  · rw [bind_ok hlook] at hrun
    obtain ⟨r, mem', htest⟩ := fatEmptyTest_mem sb (nodeAt s.disk a) { s with mem := mem }
    cases r with
    | error e =>
      rw [bind_error htest] at hrun
      cases hrun
    | ok u =>
      have hslot := h.slot (mem_of_mem_liveSlots (List.mem_of_find?_eq_some hfind))
      obtain ⟨r, d', hrest, hdel, hdata, hrem⟩ := fatUnlink_rest (s := { s with mem := mem' }) hslot
        (nodeAt s.disk a).firstCluster
      rw [bind_ok htest] at hrun
      cases hrest.symm.trans hrun
      exact ⟨a, hfind, hdel, hdata, fun l hl => (hrem l hl).2⟩
  · rw [bind_error hlook] at hrun
    cases hrun
  · rw [bind_error hlook] at hrun
    cases hrun

/-- The clusters of an entry and those of its directory are different ones. -/
def ChainsApart (sb : FatSuper) (d : Disk) (c c' : Nat) : Prop :=
  ∃ l, sb.Chain d c l ∧ ∀ m, sb.Chain d c' m → l.Disjoint m

/-- What a successful `fat_unlink_vn` leaves of its directory. -/
structure Deleted (sb : FatSuper) (d d' : Disk) (c : Nat) (slots : List Nat) (a : Nat) : Prop where
  mem : a ∈ liveSlots d slots
  eq : liveSlots d' slots = (liveSlots d slots).erase a
  others : ∀ b ∈ liveSlots d slots, b ≠ a → ∀ k < 32, d' (b + k) = d (b + k)
  dir : sb.ChainsApart d (entryCluster d a) c → sb.DirSlots d' c slots

theorem liveSlots_nodup (h : slots.Nodup) : (liveSlots d slots).Nodup := by
  induction slots with
  | nil => exact List.nodup_nil
  | cons x slots ih =>
    obtain ⟨hx, hnd⟩ := List.nodup_cons.mp h
    rw [liveSlots]
    split_ifs
    · exact List.nodup_nil
    · exact List.nodup_cons.mpr ⟨fun hm => hx (mem_of_mem_liveSlots hm), ih hnd⟩
    · exact ih hnd

theorem fatUnlinkVn_deleted (h : sb.DirSlots s.disk dir.firstCluster slots)
    (hrun : fatUnlinkVn sb dir name s = (.ok (), t)) :
    dir.isDir = true ∧ ∃ a, (liveSlots s.disk slots).find?
        (fun a => strcasecmpEq (entryName s.disk a) name) = some a ∧
      sb.Deleted s.disk t.disk dir.firstCluster slots a := by
  obtain ⟨hdir, a, hfind, hdel, hdata, hrem⟩ := fatUnlinkVn_removed h hrun
  have hmem := List.mem_of_find?_eq_some hfind
  have hslot := h.slot (mem_of_mem_liveSlots hmem)
  have hbyte : ∀ b ∈ slots, b ≠ a → ∀ k < 32, t.disk (b + k) = s.disk (b + k) := by
    intro b hb hne k hk
    refine hdata _ ((h.slot hb).ge.trans (Nat.le_add_right _ k)) ?_
    have := slot_byte_ne hslot (h.slot hb) hne hk
    omega
  refine ⟨hdir, a, hfind, hmem, ?_, fun b hb => hbyte b (mem_of_mem_liveSlots hb), ?_⟩
  · have hmarks : ∀ b ∈ slots, b ≠ a → t.disk b = s.disk b ∧ t.disk (b + 11) = s.disk (b + 11) :=
      fun b hb hne => ⟨hbyte b hb hne 0 (by decide), hbyte b hb hne 11 (by decide)⟩
    rw [liveSlots_deleted hmarks (live_of_mem_liveSlots hmem).1 hdel,
      (liveSlots_nodup h.nodup).erase_eq_filter]
    apply List.filter_congr
    intro b _
    by_cases hb : b = a <;> simp [hb]
  · rintro ⟨l, hl, hdis⟩
    refine h.congr fun m hm x hx => ?_
    rw [(hrem l hl).fat x (hm.isCluster hx).2, if_neg fun hxl => hdis m hm hxl hx]

section Contract

variable {type : VnodeType}

theorem Created.mem_iff (h : sb.Created d d' c slots slots' a sn type) :
    b ∈ liveSlots d' slots' ↔ b = a ∨ b ∈ liveSlots d slots :=
  h.perm.mem_iff.trans List.mem_cons

theorem Created.looksUp (h : sb.Created s.disk t.disk dir.firstCluster slots slots' a sn type)
    (hdir : dir.isDir = true) (hs : sb.DirSlots s.disk dir.firstCluster slots)
    (hname : fatMakeShortName name = .ok sn) (hlast : name.getLast? ≠ some 0x2E) (n : List UInt8) :
    sb.LooksUp dir t n ↔ sb.LooksUp dir s n ∨ strcasecmpEq name n = true := by
  have hnew : ∀ n, strcasecmpEq (entryName t.disk a) n = strcasecmpEq name n := by
    intro n
    have hcase : strcasecmpEq (entryName t.disk a) name = true := by
      rw [show entryName t.disk a = fatNameToStr sn from congrArg Prod.fst h.entry]
      exact fatNameToStr_shortName hname hlast
    rw [strcasecmpEq_iff] at hcase
    rw [Bool.eq_iff_iff, strcasecmpEq_iff, strcasecmpEq_iff, hcase]
  have hold : ∀ b ∈ liveSlots s.disk slots, entryName t.disk b = entryName s.disk b :=
    fun b hb => entryName_congr fun k hk => h.others b hb k (by omega)
  rw [looksUp_iff hdir h.dir, looksUp_iff hdir hs]
  constructor
  · rintro ⟨b, hb, hn⟩
    rcases h.mem_iff.mp hb with rfl | hb
    · exact .inr (by rwa [← hnew])
    · exact .inl ⟨b, hb, by rwa [← hold b hb]⟩
  · rintro (⟨b, hb, hn⟩ | hn)
    · exact ⟨b, h.mem_iff.mpr (.inr hb), by rwa [hold b hb]⟩
    · exact ⟨a, h.mem_iff.mpr (.inl rfl), by rwa [hnew]⟩

theorem Created.lists (h : sb.Created d d' c slots slots' a sn type) :
    ((liveSlots d' slots').map (listed d')).Perm
      ((fatNameToStr sn, type) :: (liveSlots d slots).map (listed d)) := by
  have hmap : (liveSlots d slots).map (listed d') = (liveSlots d slots).map (listed d) :=
    List.map_congr_left fun b hb => listed_congr (h.others b hb)
  rw [← h.entry, ← hmap]
  exact h.perm.map (listed d')

theorem Deleted.mem_iff (h : sb.Deleted d d' c slots a) (hs : sb.DirSlots d c slots) :
    b ∈ liveSlots d' slots ↔ b ≠ a ∧ b ∈ liveSlots d slots := by
  rw [h.eq, (liveSlots_nodup hs.nodup).mem_erase_iff]

theorem Deleted.looksUp (h : sb.Deleted s.disk t.disk dir.firstCluster slots a)
    (hdir : dir.isDir = true) (hs : sb.DirSlots s.disk dir.firstCluster slots)
    (hs' : sb.DirSlots t.disk dir.firstCluster slots) (n : List UInt8) :
    sb.LooksUp dir t n ↔ ∃ b ∈ liveSlots s.disk slots, b ≠ a ∧
      strcasecmpEq (entryName s.disk b) n = true := by
  have hold : ∀ b ∈ liveSlots s.disk slots, b ≠ a → entryName t.disk b = entryName s.disk b :=
    fun b hb hne => entryName_congr fun k hk => h.others b hb hne k (by omega)
  rw [looksUp_iff hdir hs']
  constructor
  · rintro ⟨b, hb, hn⟩
    obtain ⟨hne, hb⟩ := (h.mem_iff hs).mp hb
    exact ⟨b, hb, hne, by rwa [← hold b hb hne]⟩
  · rintro ⟨b, hb, hne, hn⟩
    exact ⟨b, (h.mem_iff hs).mpr ⟨hne, hb⟩, by rwa [hold b hb hne]⟩

theorem Deleted.lists (h : sb.Deleted d d' c slots a) (hs : sb.DirSlots d c slots) :
    ((liveSlots d slots).map (listed d)).Perm
      (listed d a :: (liveSlots d' slots).map (listed d')) := by
  have hmap : (liveSlots d' slots).map (listed d') = (liveSlots d' slots).map (listed d) :=
    List.map_congr_left fun b hb => by
      obtain ⟨hne, hb⟩ := (h.mem_iff hs).mp hb
      exact listed_congr (h.others b hb hne)
  rw [hmap, h.eq]
  exact (List.perm_cons_erase h.mem).map (listed d)

end Contract

/-- Creating a name adds one entry to what the directory looks up and lists, and unlinking a name
takes away the entry that lookup finds. The other entries keep all their bytes; a directory whose
clusters are not those of the unlinked entry looks up and lists the rest. -/
theorem dirContract (sb : FatSuper) (dir : FatNode) (s : FatState) (slots : List Nat)
    (name sn : List UInt8) (hwf : sb.DirWellFormed s.disk dir.firstCluster slots)
    (hname : fatMakeShortName name = .ok sn) (hlast : name.getLast? ≠ some 0x2E) :
    (∀ type node t, fatCreateVn sb dir name type s = (.ok node, t) →
      (∀ n, sb.LooksUp dir t n ↔ sb.LooksUp dir s n ∨ strcasecmpEq name n = true) ∧
      (∃ old new, sb.Lists dir s old ∧ sb.Lists dir t new ∧
        new.Perm ((fatNameToStr sn, type) :: old)) ∧
      ∃ slots', sb.DirSlots t.disk dir.firstCluster slots' ∧
        ∀ b ∈ liveSlots s.disk slots, b ∈ liveSlots t.disk slots' ∧
          direntAt t.disk b = direntAt s.disk b) ∧
    ∀ t, fatUnlinkVn sb dir name s = (.ok (), t) →
      ∃ a, (fatLookupVn sb dir name (plenty s)).1 = .ok (nodeAt s.disk a) ∧
        a ∈ liveSlots s.disk slots ∧
        liveSlots t.disk slots = (liveSlots s.disk slots).erase a ∧
        (∀ b ∈ liveSlots s.disk slots, b ≠ a → direntAt t.disk b = direntAt s.disk b) ∧
        (sb.ChainsApart s.disk (entryCluster s.disk a) dir.firstCluster →
          sb.DirSlots t.disk dir.firstCluster slots ∧
          (∀ n, sb.LooksUp dir t n ↔ ∃ b ∈ liveSlots s.disk slots, b ≠ a ∧
            strcasecmpEq (entryName s.disk b) n = true) ∧
          ∃ old new, sb.Lists dir s old ∧ sb.Lists dir t new ∧
            old.Perm (listed s.disk a :: new)) := by
  constructor
  · intro type node t hrun
    obtain ⟨hdir, slots', a, h⟩ := fatCreateVn_created hwf hname hrun
    exact ⟨h.looksUp hdir hwf.dir hname hlast,
      ⟨_, _, lists_liveSlots hdir hwf.dir, lists_liveSlots hdir h.dir, h.lists⟩,
      slots', h.dir, fun b hb => ⟨h.mem_iff.mpr (.inr hb), direntAt_congr (h.others b hb)⟩⟩
  · intro t hrun
    obtain ⟨hdir, a, hfind, h⟩ := fatUnlinkVn_deleted hwf.dir hrun
    have hlook := fatLookupVn_plenty name hdir hwf.dir
    rw [hfind] at hlook
    exact ⟨a, hlook, h.mem, h.eq, fun b hb hne => direntAt_congr (h.others b hb hne),
      fun hap => ⟨h.dir hap, h.looksUp hdir hwf.dir (h.dir hap), _, _,
        lists_liveSlots hdir hwf.dir, lists_liveSlots hdir (h.dir hap), h.lists hwf.dir⟩⟩

end FatSuper

theorem blankDisk_dirWellFormed :
    smallSuper.DirWellFormed blankDisk (fatRootNode smallSuper).firstCluster smallSuper.rootSlots where
  dir := .root (by decide)
  tail _ _ _ _ _ _ _ := rfl

/-- `A` made in an empty root is found as `a`. -/
theorem dirContract_nameA :
    smallSuper.LooksUp (fatRootNode smallSuper)
      (fatCreateVn smallSuper (fatRootNode smallSuper) nameA .file (stateOn blankDisk)).2 [0x61] := by
  obtain ⟨node, t, hrun⟩ := exists_of_isOk (m := fatCreateVn smallSuper (fatRootNode smallSuper)
    nameA .file) (s := stateOn blankDisk) (by decide +kernel)
  have h := FatSuper.dirContract smallSuper (fatRootNode smallSuper) (stateOn blankDisk)
    smallSuper.rootSlots nameA (0x41 :: List.replicate 10 0x20) blankDisk_dirWellFormed
    (by decide) (by decide)
  rw [hrun]
  exact ((h.1 .file node t hrun).1 [0x61]).mpr (.inr (by decide))

end CfKernel.Fat
