import CfKernel.Binfmt.Tar

/-!
# When unpacking stays inside the archive

The loop of `tar_extract` compares the cursor with the end of the archive, but not what a header
says about the size of its entry. A header is sound if the digits of its size end inside the
archive, the data that is read lies inside it, and the cursor behind the entry is past the header
or past the end. The loop ends, moves forward and reads nothing else exactly if every header that
it comes to is sound.
-/

namespace CfKernel.Binfmt

open Lib Fat

variable {σ ν : Type} {fs : TarFs σ ν} {root : ν} {mem : Bytes}
  {start finish ptr next n q v a : Nat} {t u w : TarRun σ} {parent : Option ν} {leaf : List UInt8} {r : Option Nat} {typeflag : UInt8}

/-- A stretch of memory that lies between two addresses. -/
def Inside (start finish : Nat) (r : Nat × Nat) : Prop :=
  r.2 = 0 ∨ start ≤ r.1 ∧ r.1 + r.2 ≤ finish

section Digits

/-- The byte `q` places behind `a` is the first one that is not an octal digit. -/
structure Digits (mem : Bytes) (a q : Nat) : Prop where
  octal : ∀ i < q, isOctal (mem (u32 (a + i))) = true
  stop : isOctal (mem (u32 (a + q))) = false

theorem Digits.unique {q' : Nat} (h : Digits mem a q) (h' : Digits mem a q') : q = q' := by
  rcases lt_trichotomy q q' with hlt | heq | hgt
  · exact absurd h.stop (by rw [h'.octal q hlt]; decide)
  · exact heq
  · exact absurd h'.stop (by rw [h.octal q' hgt]; decide)

/-- A run of digits that ends anywhere ends within one turn around the address space. -/
theorem Digits.lt (h : Digits mem a q) : q < 2 ^ 32 := by
  by_contra hge
  have hsame : u32 (a + (q - 2 ^ 32)) = u32 (a + q) := by
    simp only [u32]
    omega
  have hoct := h.octal (q - 2 ^ 32) (by omega)
  rw [hsame, h.stop] at hoct
  cases hoct

theorem u32_succ_add (a i : Nat) : u32 (u32 (a + 1) + i) = u32 (a + (i + 1)) := by
  simp only [u32]
  omega

theorem Digits.tail (h : Digits mem a (q + 1)) : Digits mem (u32 (a + 1)) q where
  octal i hi := by
    rw [u32_succ_add]
    exact h.octal (i + 1) (by omega)
  stop := by
    rw [u32_succ_add]
    exact h.stop

theorem Digits.cons (ha : isOctal (mem a) = true) (hlt : a < 2 ^ 32)
    (h : Digits mem (u32 (a + 1)) q) : Digits mem a (q + 1) where
  octal i hi := by
    cases i with
    | zero => rwa [Nat.add_zero, u32_of_lt hlt]
    | succ i =>
      rw [← u32_succ_add]
      exact h.octal i (by omega)
  stop := by
    rw [← u32_succ_add]
    exact h.stop

theorem byteAt_run (mem : Bytes) (a : Nat) (t : TarRun σ) :
    byteAt mem a t = (.ok (mem a), { t with reads := (a, 1) :: t.reads }) := rfl

theorem oct2binFrom_returns (hlt : a < 2 ^ 32) (hq : q < n) (h : Digits mem a q) (val : Nat)
    (t : TarRun σ) : ∃ v u, oct2binFrom mem n a val t = (.ok v, u) := by
  induction n generalizing a q val t with
  | zero => cases hq
  | succ n ih =>
    rw [oct2binFrom, Eff.bind_ok (byteAt_run mem a t)]
    cases q with
    | zero =>
      have hstop := h.stop
      rw [Nat.add_zero, u32_of_lt hlt] at hstop
      rw [if_neg (by simp [hstop])]
      exact ⟨_, _, rfl⟩
    | succ q =>
      have hoct := h.octal 0 (by omega)
      rw [Nat.add_zero, u32_of_lt hlt] at hoct
      rw [if_pos hoct]
      exact ih (u32_lt _) (by omega) h.tail _ _

theorem oct2binFrom_reads {val : Nat} (hlt : a < 2 ^ 32)
    (h : oct2binFrom mem n a val t = (.ok v, u)) :
    ∃ q, Digits mem a q ∧ u.cursors = t.cursors ∧
      ∀ x, x ∈ u.reads ↔ (∃ i ≤ q, x = (u32 (a + i), 1)) ∨ x ∈ t.reads := by
  induction n generalizing a val t with
  | zero => cases h
  | succ n ih =>
    rw [oct2binFrom, Eff.bind_ok (byteAt_run mem a t)] at h
    split_ifs at h with hoct
    · obtain ⟨q, hdigits, hcursors, hreads⟩ := ih (u32_lt _) h
      refine ⟨q + 1, hdigits.cons hoct hlt, hcursors, fun x => ?_⟩
      rw [hreads, List.mem_cons]
      constructor
      · rintro (⟨i, hi, rfl⟩ | rfl | hx)
        · exact .inl ⟨i + 1, by omega, by rw [u32_succ_add]⟩
        · exact .inl ⟨0, by omega, by rw [Nat.add_zero, u32_of_lt hlt]⟩
        · exact .inr hx
      · rintro (⟨i, hi, rfl⟩ | hx)
        · cases i with
          | zero => exact .inr (.inl (by rw [Nat.add_zero, u32_of_lt hlt]))
          | succ i => exact .inl ⟨i, by omega, by rw [u32_succ_add]⟩
        · exact .inr (.inr hx)
    · cases h
      have hzero : u32 (a + 0) = a := u32_of_lt hlt
      refine ⟨0, ⟨fun i hi => by omega, by rw [hzero]; simpa using hoct⟩, rfl, fun x => ?_⟩
      rw [List.mem_cons]
      constructor
      · rintro (rfl | hx)
        · exact .inl ⟨0, le_rfl, by rw [hzero]⟩
        · exact .inr hx
      · rintro (⟨i, hi, rfl⟩ | hx)
        · obtain rfl : i = 0 := by omega
          exact .inl (by rw [hzero])
        · exact .inr hx

end Digits

section Header

/-- The fields of a header that are read lie inside the archive. -/
structure FieldsInside (mem : Bytes) (start finish ptr : Nat) : Prop where
  name : Inside start finish (ptr, 100)
  size : ∃ q, Digits mem (u32 (ptr + 124)) q ∧
    ∀ i ≤ q, Inside start finish (u32 (u32 (ptr + 124) + i), 1)
  typeflag : Inside start finish (u32 (ptr + 156), 1)

theorem readHeader_returns (h : ∃ q, Digits mem (u32 (ptr + 124)) q) (t : TarRun σ) :
    ∃ x u, readHeader mem ptr t = (.ok x, u) := by
  obtain ⟨q, hdigits⟩ := h
  rw [readHeader, touch, Eff.bind_ok (Eff.modify_run _ _)]
  obtain ⟨fsize, u, hrun⟩ := oct2binFrom_returns (u32_lt _) hdigits.lt hdigits 0
    { t with reads := (ptr, 100) :: t.reads }
  rw [oct2bin, Eff.bind_ok hrun]
  exact ⟨_, _, rfl⟩

theorem readHeader_reads (start finish : Nat) (h : readHeader mem ptr t = (.ok (v, typeflag), u)) :
    u.cursors = t.cursors ∧ (∀ x ∈ t.reads, x ∈ u.reads) ∧
      ((∀ x ∈ u.reads, Inside start finish x) ↔
        FieldsInside mem start finish ptr ∧ ∀ x ∈ t.reads, Inside start finish x) := by
  rw [readHeader, touch, Eff.bind_ok (Eff.modify_run _ _)] at h
  obtain ⟨fsize, w, hsize, h⟩ := Eff.exists_of_bind_ok h
  obtain ⟨q, hdigits, hcursors, hreads⟩ := oct2binFrom_reads (u32_lt _) hsize
  cases h
  have hold : ∀ x ∈ t.reads, x ∈ w.reads := fun x hx =>
    (hreads x).mpr (.inr (List.mem_cons_of_mem _ hx))
  refine ⟨hcursors, fun x hx => List.mem_cons_of_mem _ (hold x hx), ?_⟩
  constructor
  · intro hall
    have hw : ∀ x ∈ w.reads, Inside start finish x := fun x hx => hall x (List.mem_cons_of_mem _ hx)
    exact ⟨⟨hw _ ((hreads _).mpr (.inr List.mem_cons_self)),
        ⟨q, hdigits, fun i hi => hw _ ((hreads _).mpr (.inl ⟨i, hi, rfl⟩))⟩,
        hall _ List.mem_cons_self⟩,
      fun x hx => hw x (hold x hx)⟩
  · rintro ⟨hfields, hall⟩ x hx
    obtain ⟨q', hdigits', hsize'⟩ := hfields.size
    obtain rfl := hdigits.unique hdigits'
    rcases List.mem_cons.mp hx with rfl | hx
    · exact hfields.typeflag
    rcases (hreads x).mp hx with ⟨i, hi, rfl⟩ | hx
    · exact hsize' i hi
    rcases List.mem_cons.mp hx with rfl | hx
    · exact hfields.name
    · exact hall x hx

/-- The next cursor is past the header, or the loop ends there. -/
def Advances (finish ptr next : Nat) : Prop := next < finish → ptr < next

/-- The header at `ptr`, in the state in which the loop has come to it, can be unpacked without a
read outside the archive and without moving the cursor back. -/
structure SoundHeader (fs : TarFs σ ν) (root : ν) (mem : Bytes) (start finish ptr : Nat)
    (t : TarRun σ) : Prop where
  fields : FieldsInside mem start finish ptr
  skipped : entryName (nameField mem ptr) = [] → Advances finish ptr (u32 (ptr + 512))
  leaf : entryName (nameField mem ptr) ≠ [] → (leafOf (entryName (nameField mem ptr))).length < 64
  placed : entryName (nameField mem ptr) ≠ [] → ∀ fsize typeflag u parent leaf w,
    readHeader mem ptr { t with reads := (ptr, 1) :: t.reads } = (.ok (fsize, typeflag), u) →
    tarNames fs root (entryName (nameField mem ptr)) u = (.ok (some parent, leaf), w) →
    Advances finish ptr (behind ptr fsize) ∧
      (typeflag ≠ 53 → Inside start finish (u32 (ptr + 512),
        (tarFile fs parent leaf (window mem (u32 (ptr + 512))) fsize w.fs).1))

/-- What a turn of the loop comes to. -/
inductive TarTurn (fs : TarFs σ ν) (root : ν) (mem : Bytes) (finish ptr : Nat) (t : TarRun σ) :
    Option Nat → TarRun σ → Prop
  | incomplete : finish < u32 (ptr + 512) → TarTurn fs root mem finish ptr t none t
  | zeroBlock : mem ptr = 0 →
      TarTurn fs root mem finish ptr t none { t with reads := (ptr, 1) :: t.reads }
  | skip {fsize : Nat} {typeflag : UInt8} {u : TarRun σ} : mem ptr ≠ 0 →
      readHeader mem ptr { t with reads := (ptr, 1) :: t.reads } = (.ok (fsize, typeflag), u) →
      entryName (nameField mem ptr) = [] →
      TarTurn fs root mem finish ptr t (some (u32 (ptr + 512))) u
  | noParent {fsize : Nat} {typeflag : UInt8} {u w : TarRun σ} {leaf : List UInt8} : mem ptr ≠ 0 →
      readHeader mem ptr { t with reads := (ptr, 1) :: t.reads } = (.ok (fsize, typeflag), u) →
      entryName (nameField mem ptr) ≠ [] →
      tarNames fs root (entryName (nameField mem ptr)) u = (.ok (none, leaf), w) →
      TarTurn fs root mem finish ptr t none w
  | place {fsize : Nat} {typeflag : UInt8} {u w x : TarRun σ} {parent : ν} {leaf : List UInt8} :
      mem ptr ≠ 0 →
      readHeader mem ptr { t with reads := (ptr, 1) :: t.reads } = (.ok (fsize, typeflag), u) →
      entryName (nameField mem ptr) ≠ [] →
      tarNames fs root (entryName (nameField mem ptr)) u = (.ok (some parent, leaf), w) →
      tarPlace fs mem (u32 (ptr + 512)) fsize typeflag parent leaf w = (.ok (), x) →
      TarTurn fs root mem finish ptr t (some (behind ptr fsize)) x

theorem tarEntry_turn (h : tarEntry fs root mem finish ptr t = (.ok r, u)) :
    TarTurn fs root mem finish ptr t r u := by
  rw [tarEntry] at h
  split_ifs at h with hend
  · cases h
    exact .incomplete hend
  rw [Eff.bind_ok (byteAt_run mem ptr t)] at h
  split_ifs at h with hzero
  · cases h
    exact .zeroBlock hzero
  obtain ⟨⟨fsize, typeflag⟩, v, hheader, h⟩ := Eff.exists_of_bind_ok h
  split_ifs at h with hname
  · cases h
    exact .skip hzero hheader hname
  obtain ⟨⟨parent, leaf⟩, w, hnames, h⟩ := Eff.exists_of_bind_ok h
  cases parent with
  | none =>
    cases h
    exact .noParent hzero hheader hname hnames
  | some parent =>
    obtain ⟨_, x, hplace, h⟩ := Eff.exists_of_bind_ok h
    cases h
    exact .place hzero hheader hname hnames hplace

theorem tarPlace_run (fs : TarFs σ ν) (mem : Bytes) (data fsize : Nat) (typeflag : UInt8)
    (parent : ν) (leaf : List UInt8) (t : TarRun σ) :
    ∃ s, tarPlace fs mem data fsize typeflag parent leaf t = (.ok (), { t with
      fs := s
      reads := if typeflag = 53 then t.reads
        else (data, (tarFile fs parent leaf (window mem data) fsize t.fs).1) :: t.reads }) := by
  by_cases h : typeflag = 53
  · simp only [tarPlace, if_pos h]
    exact ⟨_, rfl⟩
  · simp only [tarPlace, if_neg h]
    exact ⟨_, rfl⟩

theorem length_entryName_lt (mem : Bytes) (ptr : Nat) :
    (entryName (nameField mem ptr)).length < 128 := by
  have hfield : (nameField mem ptr).length = 100 := by rw [nameField, List.length_map,
    List.length_range]
  have htake := (List.takeWhile_prefix (l := nameField mem ptr) (· ≠ 0)).length_le
  have hnorm := length_normalize_le ((nameField mem ptr).takeWhile (· ≠ 0))
  rw [entryName]
  omega

theorem tarNames_reads
    (h : tarNames fs root (entryName (nameField mem ptr)) t = (.ok (parent, leaf), u)) :
    u.cursors = t.cursors ∧ u.reads = t.reads ∧
      (leafOf (entryName (nameField mem ptr))).length < 64 := by
  have hlen := length_entryName_lt mem ptr
  by_cases hleaf : (leafOf (entryName (nameField mem ptr))).length < 64
  · obtain ⟨_, _, hrun⟩ := tarNames_ok fs root t hlen hleaf
    rw [hrun] at h
    cases h
    exact ⟨rfl, rfl, hleaf⟩
  · rw [tarNames_overrun fs root t hlen (by omega)] at h
    cases h

theorem TarTurn.grows (h : TarTurn fs root mem finish ptr t r u) :
    u.cursors = t.cursors ∧ ∀ x ∈ t.reads, x ∈ u.reads := by
  have hold : ∀ {v typeflag w},
      readHeader mem ptr { t with reads := (ptr, 1) :: t.reads } = (.ok (v, typeflag), w) →
        w.cursors = t.cursors ∧ ∀ x ∈ t.reads, x ∈ w.reads := by
    intro v typeflag w hheader
    obtain ⟨hcursors, hsub, -⟩ := readHeader_reads 0 0 hheader
    exact ⟨hcursors, fun x hx => hsub x (List.mem_cons_of_mem _ hx)⟩
  cases h with
  | incomplete _ => exact ⟨rfl, fun x hx => hx⟩
  | zeroBlock _ => exact ⟨rfl, fun x hx => List.mem_cons_of_mem _ hx⟩
  | skip _ hheader _ => exact hold hheader
  | noParent _ hheader _ hnames =>
    obtain ⟨hcursors, hreads, -⟩ := tarNames_reads hnames
    rw [hcursors, hreads]
    exact hold hheader
  | @place fsize typeflag v w _ parent leaf _ hheader _ hnames hplace =>
    obtain ⟨hcursors, hreads, -⟩ := tarNames_reads hnames
    obtain ⟨s, hrun⟩ := tarPlace_run fs mem (u32 (ptr + 512)) fsize typeflag parent leaf w
    rw [hrun] at hplace
    cases hplace
    obtain ⟨hc, hr⟩ := hold hheader
    refine ⟨hcursors.trans hc, fun x hx => ?_⟩
    have hw : x ∈ w.reads := hreads ▸ hr x hx
    split
    · exact hw
    · exact List.mem_cons_of_mem _ hw

/-- What the loop requires of the place it has come to. -/
def TurnOk (fs : TarFs σ ν) (root : ν) (mem : Bytes) (start finish ptr : Nat) (t : TarRun σ) :
    Prop :=
  finish < u32 (ptr + 512) ∨ mem ptr = 0 ∨ SoundHeader fs root mem start finish ptr t

theorem TarTurn.turnOk (h : TarTurn fs root mem finish ptr t r u)
    (hin : ∀ x ∈ u.reads, Inside start finish x) (hadv : ∀ next ∈ r, Advances finish ptr next) :
    TurnOk fs root mem start finish ptr t := by
  cases h with
  | incomplete hend => exact .inl hend
  | zeroBlock hzero => exact .inr (.inl hzero)
  | skip _ hheader hname =>
    obtain ⟨-, -, hiff⟩ := readHeader_reads start finish hheader
    exact .inr (.inr ⟨(hiff.mp hin).1, fun _ => hadv _ rfl, fun h => absurd hname h,
      fun h => absurd hname h⟩)
  | noParent _ hheader hname hnames =>
    obtain ⟨-, -, hiff⟩ := readHeader_reads start finish hheader
    obtain ⟨-, hreads, hleaf⟩ := tarNames_reads hnames
    rw [hreads] at hin
    refine .inr (.inr ⟨(hiff.mp hin).1, fun h => absurd h hname, fun _ => hleaf, ?_⟩)
    intro _ _ _ _ _ _ _ hheader' hnames'
    rw [hheader] at hheader'
    cases hheader'
    rw [hnames] at hnames'
    cases hnames'
  | @place fsize typeflag v w _ parent leaf _ hheader hname hnames hplace =>
    obtain ⟨-, -, hiff⟩ := readHeader_reads start finish hheader
    obtain ⟨-, hreads, hleaf⟩ := tarNames_reads hnames
    obtain ⟨s, hrun⟩ := tarPlace_run fs mem (u32 (ptr + 512)) fsize typeflag parent leaf w
    rw [hrun] at hplace
    cases hplace
    have hdata : (∀ x ∈ w.reads, Inside start finish x) ∧ (typeflag ≠ 53 →
        Inside start finish (u32 (ptr + 512),
          (tarFile fs parent leaf (window mem (u32 (ptr + 512))) fsize w.fs).1)) := by
      by_cases htype : typeflag = 53
      · simp only [if_pos htype] at hin
        exact ⟨hin, fun h => absurd htype h⟩
      · simp only [if_neg htype] at hin
        exact ⟨fun x hx => hin x (List.mem_cons_of_mem _ hx), fun _ => hin _ List.mem_cons_self⟩
    rw [hreads] at hdata
    refine .inr (.inr ⟨(hiff.mp hdata.1).1, fun h => absurd h hname, fun _ => hleaf, ?_⟩)
    intro _ _ _ _ _ _ _ hheader' hnames'
    rw [hheader] at hheader'
    cases hheader'
    rw [hnames] at hnames'
    cases hnames'
    exact ⟨hadv _ rfl, hdata.2⟩

theorem TurnOk.run (h : TurnOk fs root mem start finish ptr t) (hptr : start ≤ ptr)
    (hlt : ptr < finish) (hin : ∀ x ∈ t.reads, Inside start finish x) :
    ∃ r u, tarEntry fs root mem finish ptr t = (.ok r, u) ∧
      (∀ x ∈ u.reads, Inside start finish x) ∧ ∀ next ∈ r, Advances finish ptr next := by
  rw [tarEntry]
  split_ifs with hend
  · exact ⟨_, _, rfl, hin, by simp⟩
  rw [Eff.bind_ok (byteAt_run mem ptr t)]
  have hin1 : ∀ x ∈ (ptr, 1) :: t.reads, Inside start finish x :=
    List.forall_mem_cons.mpr ⟨.inr ⟨hptr, hlt⟩, hin⟩
  split_ifs with hzero
  · exact ⟨_, _, rfl, hin1, by simp⟩
  obtain hend' | hzero' | hsound := h
  · exact absurd hend' hend
  · exact absurd hzero' hzero
  obtain ⟨q, hdigits, -⟩ := hsound.fields.size
  obtain ⟨⟨fsize, typeflag⟩, u, hheader⟩ :=
    readHeader_returns ⟨q, hdigits⟩ { t with reads := (ptr, 1) :: t.reads }
  obtain ⟨-, -, hiff⟩ := readHeader_reads start finish hheader
  have hinu := hiff.mpr ⟨hsound.fields, hin1⟩
  rw [Eff.bind_ok hheader]
  dsimp only
  split_ifs with hname
  · refine ⟨_, _, rfl, hinu, fun next hnext => ?_⟩
    obtain rfl := Option.mem_some.mp hnext
    exact hsound.skipped hname
  obtain ⟨parent, s, hnames⟩ :=
    tarNames_ok fs root u (length_entryName_lt mem ptr) (hsound.leaf hname)
  rw [Eff.bind_ok hnames]
  cases parent with
  | none => exact ⟨_, _, rfl, hinu, by simp⟩
  | some parent =>
    obtain ⟨hadv, hdata⟩ := hsound.placed hname _ _ _ _ _ _ hheader hnames
    obtain ⟨s', hplace⟩ := tarPlace_run fs mem (u32 (ptr + 512)) fsize typeflag parent
      (leafOf (entryName (nameField mem ptr))) { u with fs := s }
    change ∃ r v, ((tarPlace fs mem (u32 (ptr + 512)) fsize typeflag parent
      (leafOf (entryName (nameField mem ptr))) >>= fun _ => pure (some (behind ptr fsize))) :
        TarM σ _) _ = (.ok r, v) ∧ _
    rw [Eff.bind_ok hplace]
    refine ⟨_, _, rfl, ?_, fun next hnext => ?_⟩
    · by_cases htype : typeflag = 53
      · simp only [if_pos htype]
        exact hinu
      · simp only [if_neg htype]
        exact List.forall_mem_cons.mpr ⟨hdata htype, hinu⟩
    · obtain rfl := Option.mem_some.mp hnext
      exact hadv

end Header

section Loop

-- the loop is reasoned about by what `tarEntry_turn` and `TurnOk.run` say of a turn
attribute [local irreducible] tarEntry

/-- The places that the loop comes to, with the state it comes there in. -/
inductive Reached (fs : TarFs σ ν) (root : ν) (mem : Bytes) (start finish : Nat) (t₀ : TarRun σ) :
    Nat → TarRun σ → Prop
  | start : Reached fs root mem start finish t₀ start t₀
  | next {ptr next : Nat} {t u : TarRun σ} : Reached fs root mem start finish t₀ ptr t →
      ptr < finish → tarEntry fs root mem finish ptr (atCursor ptr t) = (.ok (some next), u) →
      Reached fs root mem start finish t₀ next u

/-- A run of the loop that returned, stayed inside the archive and only moved forward. -/
structure TarDone (start finish : Nat) (t : TarRun σ) : Prop where
  reads : ∀ x ∈ t.reads, Inside start finish x
  cursors : ∀ c ∈ t.cursors, start ≤ c ∧ c < finish
  forward : t.cursors.Pairwise (· > ·)

theorem tarLoop_end (h : finish ≤ ptr) (t : TarRun σ) :
    tarLoop fs root mem finish (n + 1) ptr t = (.ok (), t) := by
  change (if ptr < finish then _ else pure () : TarM σ Unit) t = _
  rw [if_neg (by omega)]
  rfl

theorem tarLoop_turn (h : ptr < finish) (t : TarRun σ) :
    tarLoop fs root mem finish (n + 1) ptr t =
      (tarEntry fs root mem finish ptr >>= fun r => match r with
        | none => pure ()
        | some ptr => tarLoop fs root mem finish n ptr) (atCursor ptr t) := by
  change (if ptr < finish then _ else pure () : TarM σ Unit) t = _
  rw [if_pos h]
  exact Eff.bind_ok (Eff.modify_run _ _)

theorem tarLoop_grows (h : tarLoop fs root mem finish n ptr t = (.ok (), u)) :
    (∀ x ∈ t.reads, x ∈ u.reads) ∧ t.cursors <:+ u.cursors ∧
      (ptr < finish → ptr :: t.cursors <:+ u.cursors) := by
  induction n generalizing ptr t with
  | zero => cases h
  | succ n ih =>
    by_cases hlt : ptr < finish
    · rw [tarLoop_turn hlt] at h
      obtain ⟨r, w, hturn, h⟩ := Eff.exists_of_bind_ok h
      obtain ⟨hcursors, hreads⟩ := (tarEntry_turn hturn).grows
      have hrest : (∀ x ∈ w.reads, x ∈ u.reads) ∧ w.cursors <:+ u.cursors := by
        cases r with
        | none =>
          cases h
          exact ⟨fun x hx => hx, List.suffix_rfl⟩
        | some next => exact ⟨(ih h).1, (ih h).2.1⟩
      have hsuffix : ptr :: t.cursors <:+ u.cursors := by
        have := hrest.2
        rwa [hcursors] at this
      exact ⟨fun x hx => hrest.1 x (hreads x hx),
        (List.suffix_cons ptr t.cursors).trans hsuffix, fun _ => hsuffix⟩
    · rw [tarLoop_end (by omega)] at h
      cases h
      exact ⟨fun x hx => hx, List.suffix_rfl, fun h => absurd h hlt⟩

variable {t₀ : TarRun σ}

theorem Reached.rest {turns : Nat} (hrun : tarLoop fs root mem finish turns start t₀ = (.ok (), u))
    (h : Reached fs root mem start finish t₀ ptr t) :
    ∃ turns, tarLoop fs root mem finish turns ptr t = (.ok (), u) := by
  induction h with
  | start => exact ⟨turns, hrun⟩
  | next _ hlt hturn ih =>
    obtain ⟨turns, hrest⟩ := ih
    cases turns with
    | zero => cases hrest
    | succ turns =>
      rw [tarLoop_turn hlt, Eff.bind_ok hturn] at hrest
      exact ⟨turns, hrest⟩

theorem TarDone.turnOk {turns : Nat} (hdone : TarDone start finish u) (hlt : ptr < finish)
    (hrun : tarLoop fs root mem finish turns ptr t = (.ok (), u)) :
    TurnOk fs root mem start finish ptr (atCursor ptr t) := by
  cases turns with
  | zero => cases hrun
  | succ turns =>
    rw [tarLoop_turn hlt] at hrun
    obtain ⟨r, w, hturn, hrest⟩ := Eff.exists_of_bind_ok hrun
    obtain ⟨hcursors, -⟩ := (tarEntry_turn hturn).grows
    cases r with
    | none =>
      cases hrest
      exact (tarEntry_turn hturn).turnOk hdone.reads (by simp)
    | some next =>
      obtain ⟨hreads, -, hsuffix⟩ := tarLoop_grows hrest
      refine (tarEntry_turn hturn).turnOk (fun x hx => hdone.reads x (hreads x hx)) ?_
      intro next' hnext hmore
      obtain rfl := Option.mem_some.mp hnext
      have hpair := hdone.forward.sublist (hsuffix hmore).sublist
      rw [hcursors] at hpair
      exact List.rel_of_pairwise_cons hpair List.mem_cons_self

/-- The loop on the archive of `size` bytes at `start` returns, reads only bytes of the archive and
moves its cursor forward inside it. -/
def TarSafe (fs : TarFs σ ν) (mem : Bytes) (root : Option ν) (start size : Nat) (s : σ) : Prop :=
  ∃ turns t, tarExtract fs mem root start size turns ⟨s, [], []⟩ = (.ok (), t) ∧
    TarDone start (start + size) t

theorem TarSafe.turnOk {size : Nat} {s : σ} (h : TarSafe fs mem (some root) start size s)
    (hstart : start ≠ 0) (hfit : start + size < 2 ^ 32)
    (hreach : Reached fs root mem start (start + size) ⟨s, [], []⟩ ptr t)
    (hlt : ptr < start + size) : TurnOk fs root mem start (start + size) ptr (atCursor ptr t) := by
  obtain ⟨turns, u, hrun, hdone⟩ := h
  by_cases hsize : size = 0
  · -- the only place is the start, and the loop does not turn there
    have hall : ∀ {ptr t}, Reached fs root mem start (start + size) ⟨s, [], []⟩ ptr t →
        start ≤ ptr := by
      intro ptr t hr
      induction hr with
      | start => exact le_rfl
      | next _ hlt _ ih => omega
    have := hall hreach
    omega
  rw [tarExtract, if_neg (by omega), u32_of_lt hfit] at hrun
  obtain ⟨turns, hrest⟩ := hreach.rest hrun
  exact hdone.turnOk hlt hrest

end Loop

end CfKernel.Binfmt
