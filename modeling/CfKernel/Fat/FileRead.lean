import CfKernel.Fat.FileOps

/-!
# Reading a file

`fat_read_vn` walks to the first cluster and then copies a cluster part at a time. On a chain that
covers the file it returns exactly the bytes asked for, unless its buffer cannot be allocated.
-/

namespace CfKernel.Fat

open Lib Lib.Eff

namespace FatSuper

variable {sb : FatSuper} {a c x y n i k off len done clusterOff : Nat}
variable {d : Disk} {l q : List Nat} {s : FatState} {dst : Bytes}

theorem Chain.next (hl : sb.Chain d c l) (hx : l[k]? = some x) (hy : l[k + 1]? = some y) :
    fatNextCluster sb d x = .ok y ∧ y ≠ 0 := by
  induction l generalizing c k with
  | nil => cases hx
  | cons z l ih =>
    obtain ⟨rfl, n, hlink, hn⟩ := path_cons.mp hl
    cases k with
    | zero =>
      cases l with
      | nil => cases hy
      | cons w l =>
        cases hx
        cases hy
        have h0 := Chain.head_ne_zero hn
        cases hn.head_eq
        exact ⟨hlink.2, h0⟩
    | succ k => exact ih hn (by simpa using hx) (by simpa using hy)

theorem fatSkip_run (hl : sb.Chain d c l) (hx : l[n]? = some x) : fatSkip sb d n c = .ok x := by
  induction n generalizing c l with
  | zero =>
    cases l with
    | nil => cases hx
    | cons z l =>
      cases hx
      rw [fatSkip, hl.head_eq]
  | succ n ih =>
    cases l with
    | nil => cases hx
    | cons z l =>
      obtain ⟨rfl, w, hlink, hw⟩ := path_cons.mp hl
      have hx' : l[n]? = some x := by simpa using hx
      have hw0 : w ≠ 0 := by
        cases l with
        | nil => cases hx'
        | cons v l => exact Chain.head_ne_zero hw
      simp only [fatSkip, hlink.2, bind, Except.bind, if_neg hw0]
      exact ih hw hx'

theorem chunk_boundary (sb : FatSuper) (cur m : Nat)
    (h : min (sb.clusterSize - cur % sb.clusterSize) m < m) :
    (cur + min (sb.clusterSize - cur % sb.clusterSize) m) / sb.clusterSize =
        cur / sb.clusterSize + 1 ∧
      (cur + min (sb.clusterSize - cur % sb.clusterSize) m) % sb.clusterSize = 0 := by
  have hpos := sb.clusterSize_pos
  have hmod := Nat.mod_lt cur hpos
  have hdm := Nat.div_add_mod' cur sb.clusterSize
  have heq : cur + min (sb.clusterSize - cur % sb.clusterSize) m =
      (cur / sb.clusterSize + 1) * sb.clusterSize := by
    rw [Nat.add_mul]
    omega
  rw [heq]
  exact ⟨Nat.mul_div_cancel _ hpos, Nat.mul_mod_left _ _⟩

theorem fatReadLoop_spec (n done : Nat) (dst : Bytes) (hl : sb.Chain d c l)
    (hend : off + len ≤ l.length * sb.clusterSize) (hdone : done ≤ len)
    (hx : done < len → l[(off + done) / sb.clusterSize]? = some x)
    (hn : l.length ≤ (off + done) / sb.clusterSize + n) :
    ∃ dst', fatReadLoop sb d len n x ((off + done) % sb.clusterSize) done dst =
        ⟨.ok (), len, dst'⟩ ∧
      (∀ k, done ≤ k → k < len → dst' k = d (sb.fileAddr l (off + k))) ∧
      ∀ k, k < done ∨ len ≤ k → dst' k = dst k := by
  induction n generalizing done dst x with
  | zero =>
    have hd : done = len := by
      by_contra hne
      have := index_lt (show off + done < l.length * sb.clusterSize by omega)
      omega
    subst hd
    exact ⟨dst, rfl, fun k h1 h2 => by omega, fun _ _ => rfl⟩
  | succ n ih =>
    by_cases hlt : done < len
    · have hin : off + done < l.length * sb.clusterSize := by omega
      have hxe : x = l.getD ((off + done) / sb.clusterSize) 0 :=
        Option.some.inj ((hx hlt).symm.trans (getElem?_index hin))
      have hcl := hl.isCluster (List.mem_of_getElem? (hx hlt))
      have hpos := sb.chunk_pos (off + done) (m := len - done) (by omega)
      have hfit := sb.chunk_le (off + done) (len - done)
      have hbound := sb.chunk_boundary (off + done) (len - done)
      have hle : min (sb.clusterSize - (off + done) % sb.clusterSize) (len - done) ≤ len - done :=
        Nat.min_le_right _ _
      simp only [fatReadLoop, if_pos hlt, hcl.readCluster]
      generalize min (sb.clusterSize - (off + done) % sb.clusterSize) (len - done) = amount at *
      have hcopy : ∀ k < amount, window (window d (sb.clusterAddr x))
          ((off + done) % sb.clusterSize) k = d (sb.fileAddr l (off + (done + k))) := by
        intro k hk
        rw [window_apply, window_apply, ← Nat.add_assoc off, fileAddr_add (by omega), fileAddr,
          ← hxe, Nat.add_assoc]
      generalize window (window d (sb.clusterAddr x)) ((off + done) % sb.clusterSize) = part at hcopy ⊢
      by_cases hmore : done + amount < len
      · obtain ⟨hdiv, hmod⟩ := hbound (by omega)
        rw [Nat.add_assoc] at hdiv hmod
        have hin' : off + (done + amount) < l.length * sb.clusterSize := by omega
        have hnext := hl.next (hx hlt) (by rw [← hdiv]; exact getElem?_index hin')
        obtain ⟨dst', hrun, hval, hkeep⟩ := ih (done + amount) (splice dst done amount part)
          (by omega) (fun _ => getElem?_index hin') (by rw [hdiv]; omega)
        rw [hmod] at hrun
        refine ⟨dst', ?_, fun k h1 h2 => ?_, fun k hk => ?_⟩
        · simp only [if_pos hmore, hnext.1, if_neg hnext.2, hrun]
        · by_cases hk : k < done + amount
          · obtain ⟨j, rfl⟩ := Nat.exists_eq_add_of_le h1
            rw [hkeep _ (.inl hk), splice_at_add (by omega), hcopy j (by omega)]
          · exact hval k (by omega) h2
        · rw [hkeep k (by omega), splice_outside (by omega)]
      · have hfin : done + amount = len := by omega
        refine ⟨splice dst done amount part, ?_, fun k h1 h2 => ?_, fun k hk => ?_⟩
        · rw [if_neg hmore, hfin]
        · obtain ⟨j, rfl⟩ := Nat.exists_eq_add_of_le h1
          rw [splice_at_add (by omega), hcopy j (by omega)]
        · exact splice_outside (by omega)
    · obtain rfl : done = len := by omega
      refine ⟨dst, ?_, fun k h1 h2 => by omega, fun _ _ => rfl⟩
      rw [fatReadLoop, if_neg hlt]

/-- What a read of `len` bytes at `off` returns. -/
def readCount (size off len : Nat) : Nat := min len (size - off)

/-- `fat_read_vn` returns exactly the bytes of the file in the range, or reports that it has no
memory and changes nothing. -/
theorem fatReadVn_spec (off len : Nat) (h : sb.FileAt s a l) :
    ∃ mem, (∃ dst', fatReadVn sb off len s =
          (.ok (), { s with mem := mem, out := readCount s.node.size off len, dst := dst' }) ∧
        (∀ k < readCount s.node.size off len, dst' k = s.disk (sb.fileAddr l (off + k))) ∧
        ∀ k, readCount s.node.size off len ≤ k → dst' k = s.dst k) ∨
      fatReadVn sb off len s = (.error .outOfMemory, { s with mem := mem }) := by
  have hdir : ¬ s.node.isDir = true := by rw [h.file]; decide
  by_cases hnone : s.node.size ≤ off ∨ len = 0
  · have h0 : readCount s.node.size off len = 0 := by
      unfold readCount
      omega
    refine ⟨s.mem, .inl ⟨s.dst, ?_, fun k hk => by omega, fun _ _ => rfl⟩⟩
    rw [fatReadVn, bind_ok (getNode_run s), if_neg hdir, if_pos hnone, h0]
    rfl
  · have hlen : (if s.node.size - off < len then s.node.size - off else len) =
        readCount s.node.size off len := by
      unfold readCount
      split_ifs <;> omega
    have hpos : 0 < readCount s.node.size off len := by
      unfold readCount
      omega
    have hend : off + readCount s.node.size off len ≤ l.length * sb.clusterSize := by
      have := h.size_le
      unfold readCount
      omega
    have hfirst : ¬ (s.node.firstCluster = 0 ∧ s.node.size ≠ 0) := by
      rintro ⟨h0, -⟩
      have hc := h.chain
      rw [h0] at hc
      have := chain_zero.mp hc
      subst this
      simp only [List.length_nil, Nat.zero_mul] at hend
      omega
    have hin : off < l.length * sb.clusterSize := by omega
    generalize readCount s.node.size off len = m at *
    obtain ⟨mem, hm | hm⟩ := malloc_cases s
    · obtain ⟨dst', hrun, hval, hkeep⟩ := fatReadLoop_spec (sb.clusterCount + 1) 0 s.dst h.chain
        hend (Nat.zero_le m) (fun _ => getElem?_index hin) 
        (h.chain.length_le.trans ((Nat.le_succ _).trans (Nat.le_add_left _ _)))
      refine ⟨mem, .inl ⟨dst', ?_, fun k hk => hval k (by omega) hk, fun k hk => hkeep k (.inr hk)⟩⟩
      have hchunks : fatReadChunks sb s.disk s.node off m s.dst = ⟨.ok (), m, dst'⟩ := by
        rw [fatReadChunks, if_neg hfirst, fatSkip_run h.chain (getElem?_index hin)]
        exact hrun
      rw [fatReadVn, bind_ok (getNode_run s), if_neg hdir, if_neg hnone]
      simp only [hlen]
      rw [bind_ok hm]
      refine (bind_ok (a := ⟨.ok (), m, dst'⟩) (t := { s with mem := mem })
        (by simp only [Eff.read, hchunks])).trans ?_
      rw [bind_ok (modify_run _ _)]
      simp only [ne_eq, not_true_eq_false, if_false]
      rfl
    · refine ⟨mem, .inr ?_⟩
      rw [fatReadVn, bind_ok (getNode_run s), if_neg hdir, if_neg hnone]
      simp only [hlen]
      rw [bind_error hm]

end FatSuper

end CfKernel.Fat
