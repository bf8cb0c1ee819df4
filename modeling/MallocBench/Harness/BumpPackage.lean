import MallocBench.Harness.Sessions

/-! # The simplest malloc package

Every payload is put at the break, aligned, and the break is raised over it; nothing is ever reused.
`mm_realloc` copies into a new payload.

* **`bumpPackage_contract`**: the package honours the malloc contract, from every state of the memory
  system.
* **`bumpPackage_neverNull`**: it answers requests that fit into the heap together. -/

namespace MallocBench

open ByteMemory

/-- The break rounded up to the alignment. -/
def alignedBrk (s : Process Unit) : Nat := (s.memlib.memBrk + 7) / 8 * 8

/-- `mm_malloc`: raise the break. -/
def bumpMalloc (size : Nat) (s : Process Unit) : Nat × Process Unit :=
  match s.memlib.memSbrk (alignedBrk s + size - s.memlib.memBrk : Nat) with
  | none => (0, s)
  | some (_, m) => (alignedBrk s, { s with memlib := m })

/-- `mm_realloc`: copy into a new payload. -/
def bumpRealloc (ptr size : Nat) (s : Process Unit) : Nat × Process Unit :=
  match bumpMalloc size s with
  | (0, s) => (0, s)
  | (p, t) => (p, t.setMem (memcpy t.memlib.mem p ptr size))

/-- The package. -/
def bumpPackage : Package Unit where
  mmInit s := (0, s)
  mmMalloc := bumpMalloc
  mmRealloc := bumpRealloc
  mmFree _ s := s

/-- What a request takes from the heap at most. -/
def bumpCost : Request → Nat
  | .malloc _ size => size + 7
  | .realloc _ size => size + 7
  | .free _ => 0

/-! ## One call -/

/-- Where a new payload is and what the call leaves. -/
structure Bumped (s t : Process Unit) (p size : Nat) : Prop where
  aligned : 8 ∣ p
  above : s.memlib.memBrk ≤ p
  near : p ≤ s.memlib.memBrk + 7
  brk : t.memlib.memBrk = p + size
  start : t.memlib.memStartBrk = s.memlib.memStartBrk

/-- **A request that fits is served**, at a pointer that is not null. -/
theorem bumpMalloc_of_fits {s : Process Unit} {size : Nat} (hstart : 0 < s.memlib.memStartBrk)
    (hfits : s.memlib.memBrk + 7 + size ≤ s.memlib.memStartBrk + maxHeap) :
    (bumpMalloc size s).1 ≠ 0 := by
  have hroom : s.memlib.memBrk + (alignedBrk s + size - s.memlib.memBrk) ≤ s.memlib.memMaxAddr := by
    rw [s.memlib.max_eq, alignedBrk]
    omega
  obtain ⟨m, hm, -⟩ := Memlib.memSbrk_natCast hroom
  have hbrk := s.memlib.start_le_brk
  rw [bumpMalloc, hm]
  change (s.memlib.memBrk + 7) / 8 * 8 ≠ 0
  omega

/-- What a call that is served does. -/
theorem bumpMalloc_spec {s t : Process Unit} {size p : Nat} (h : bumpMalloc size s = (p, t))
    (hp : p ≠ 0) : Bumped s t p size ∧ t.memlib.mem = s.memlib.mem := by
  rw [bumpMalloc] at h
  split at h
  · exact absurd (Prod.mk.inj h).1.symm hp
  · next old m hm =>
    obtain ⟨rfl, rfl⟩ := Prod.mk.inj h
    have hroom := mt Memlib.memSbrk_eq_none.mpr (hm ▸ Option.some_ne_none _)
    rw [not_or, not_lt, not_lt, Int.toNat_natCast] at hroom
    obtain ⟨m', hm', hmem, hstart, hbrk⟩ := Memlib.memSbrk_natCast hroom.2
    obtain ⟨rfl, rfl⟩ := Prod.mk.inj (Option.some.inj (hm.symm.trans hm'))
    refine ⟨⟨?_, ?_, ?_, ?_, hstart⟩, hmem⟩
    · exact Nat.dvd_mul_left 8 _
    · rw [alignedBrk]
      omega
    · rw [alignedBrk]
      omega
    · rw [hbrk, alignedBrk]
      omega

/-- `mm_realloc` differs in the bytes it copies. -/
theorem bumpRealloc_spec {s t : Process Unit} {ptr size p : Nat} (h : bumpRealloc ptr size s = (p, t))
    (hp : p ≠ 0) :
    Bumped s t p size ∧ t.memlib.mem = memcpy s.memlib.mem p ptr size := by
  rw [bumpRealloc] at h
  split at h
  · exact absurd (Prod.mk.inj h).1.symm hp
  · next q u hcall =>
    obtain ⟨rfl, rfl⟩ := Prod.mk.inj h
    obtain ⟨⟨haligned, habove, hnear, hbrk, hstart⟩, hmem⟩ := bumpMalloc_spec hcall hp
    refine ⟨⟨haligned, habove, hnear, hbrk, hstart⟩, ?_⟩
    rw [Process.setMem_mem, hmem]

/-! ## Sessions -/

/-- The live payloads are aligned, below the break and apart. -/
structure BelowBrk (s : Process Unit) (blocks : Nat → Option Extent) : Prop where
  inside : ∀ i b, blocks i = some b →
    8 ∣ b.ptr ∧ s.memlib.memStartBrk ≤ b.ptr ∧ 0 < b.size ∧ b.ptr + b.size ≤ s.memlib.memBrk
  apart : ∀ i j a b, i ≠ j → blocks i = some a → blocks j = some b →
    a.ptr + a.size ≤ b.ptr ∨ b.ptr + b.size ≤ a.ptr

/-- A new payload at the break, under a new id or in the place of an old one. -/
theorem BelowBrk.bump {s t : Process Unit} {blocks : Nat → Option Extent} (h : BelowBrk s blocks)
    {p size : Nat} (hbumped : Bumped s t p size) (hsize : 0 < size) (index : Nat) :
    BelowBrk t (Function.update blocks index (some ⟨p, size⟩)) := by
  obtain ⟨haligned, habove, -, hbrk, hstart⟩ := hbumped
  have hle := s.memlib.start_le_brk
  -- an old payload ends below the new one
  have hold : ∀ i b, blocks i = some b → b.ptr + b.size ≤ p :=
    fun i b hb => (h.inside i b hb).2.2.2.trans habove
  constructor
  · intro i b hb
    obtain ⟨-, rfl⟩ | ⟨-, hb⟩ := of_update_some hb
    · exact ⟨haligned, hstart.trans_le (hle.trans habove), hsize, hbrk.ge⟩
    · obtain ⟨ha, hlo, hpos, hend⟩ := h.inside i b hb
      exact ⟨ha, hstart ▸ hlo, hpos, by omega⟩
  · intro i j a b hij ha hb
    obtain ⟨rfl, rfl⟩ | ⟨-, ha⟩ := of_update_some ha
    · obtain ⟨rfl, -⟩ | ⟨-, hb⟩ := of_update_some hb
      · exact absurd rfl hij
      · exact .inr (hold j b hb)
    · obtain ⟨-, rfl⟩ | ⟨-, hb⟩ := of_update_some hb
      · exact .inl (hold i a ha)
      · exact h.apart i j a b hij ha hb

/-- What every session keeps: the payloads are below the break, which rises by the costs of the requests
at most. -/
structure BelowCosts (start s : Process Unit) (done : List Request) (blocks : Nat → Option Extent) :
    Prop where
  below : BelowBrk s blocks
  sameStart : s.memlib.memStartBrk = start.memlib.memStartBrk
  brk : s.memlib.memBrk ≤ start.memlib.memStartBrk + (done.map bumpCost).sum

/-- A request that is served costs its size and the alignment. -/
theorem BelowCosts.bump {start s t : Process Unit} {done : List Request}
    {blocks : Nat → Option Extent} (h : BelowCosts start s done blocks) {p size : Nat}
    (hbumped : Bumped s t p size) (hsize : 0 < size) (index : Nat) {r : Request}
    (hcost : bumpCost r = size + 7) :
    BelowCosts start t (done ++ [r]) (Function.update blocks index (some ⟨p, size⟩)) := by
  refine ⟨h.below.bump hbumped hsize index, hbumped.start.trans h.sameStart, ?_⟩
  have hnear := hbumped.near
  have hbrk := h.brk
  simp only [hbumped.brk, List.map_append, List.sum_append, List.map_cons, List.map_nil, List.sum_cons,
    List.sum_nil, hcost]
  omega

/-- What a session with this package has handed out is below the break. -/
theorem bump_session {start s : Process Unit} {done : List Request} {blocks : Nat → Option Extent}
    (hs : Session bumpPackage start done s blocks) : BelowCosts start s done blocks := by
  induction hs with
  | init => exact ⟨⟨by simp, by simp⟩, rfl, le_rfl⟩
  | malloc _ _ hsize hcall hp ih => exact ih.bump (bumpMalloc_spec hcall hp).1 hsize _ rfl
  | realloc _ _ hsize hcall hp ih => exact ih.bump (bumpRealloc_spec hcall hp).1 hsize _ rfl
  | free _ _ ih =>
      obtain ⟨hbelow, hstart, hbrk⟩ := ih
      refine ⟨⟨fun i b hb => hbelow.inside i b (of_update_none hb).2, fun i j a b hij ha hb =>
        hbelow.apart i j a b hij (of_update_none ha).2 (of_update_none hb).2⟩, hstart, ?_⟩
      simpa [bumpPackage, bumpCost] using hbrk
  | write _ _ _ ih => exact ⟨⟨ih.below.inside, ih.below.apart⟩, ih.sameStart, ih.brk⟩

/-- **The package honours the contract.** -/
theorem bumpPackage_contract (start : Process Unit) : Contract bumpPackage start where
  init := le_rfl
  aligned hs i b hb := ((bump_session hs).below.inside i b hb).1
  inHeap hs i b hb := by
    obtain ⟨-, hlo, hpos, hhi⟩ := (bump_session hs).below.inside i b hb
    rw [Memlib.memHeapLo, Memlib.memHeapHi]
    omega
  disjoint hs i j a b hij ha hb := by
    obtain ⟨-, -, hapos, -⟩ := (bump_session hs).below.inside i a ha
    obtain ⟨-, -, hbpos, -⟩ := (bump_session hs).below.inside j b hb
    have hapart := (bump_session hs).below.apart i j a b hij ha hb
    refine Set.disjoint_left.mpr fun x hxa hxb => ?_
    rw [Extent.addresses, Set.mem_Icc] at hxa hxb
    omega
  malloc_untouched hs size p t _ hcall hp i b _ k _ := by rw [(bumpMalloc_spec hcall hp).2]
  realloc_untouched hs i old size p t _ _ hcall hp j b _ hb k hk := by
    obtain ⟨hbumped, hmem⟩ := bumpRealloc_spec hcall hp
    have hinside := (bump_session hs).below.inside j b hb
    have habove := hbumped.above
    rw [hmem, memcpy, blit_apply_of_notMem _ _ _ _ (by omega)]
  realloc_preserves hs i old size p t _ _ hcall hp k hk := by
    rw [(bumpRealloc_spec hcall hp).2, memcpy, blit_apply_add _ _ _ _ (by omega)]
  free_untouched hs i old _ j b _ _ k _ := rfl

/-- A request of a list that fits into the heap fits behind the session so far. -/
theorem bump_fits {start s : Process Unit} {done requests : List Request}
    {blocks : Nat → Option Extent} (hs : Session bumpPackage start done s blocks)
    (hfit : (requests.map bumpCost).sum ≤ maxHeap) {r : Request} (hr : done ++ [r] <+: requests) :
    s.memlib.memBrk + bumpCost r ≤ s.memlib.memStartBrk + maxHeap := by
  obtain ⟨-, hstart, hbrk⟩ := bump_session hs
  obtain ⟨rest, rfl⟩ := hr
  rw [List.map_append, List.map_append, List.sum_append, List.sum_append] at hfit
  simp only [List.map_cons, List.map_nil, List.sum_cons, List.sum_nil] at hfit
  omega

/-- **Requests that fit together are answered.** -/
theorem bumpPackage_neverNull {start : Process Unit} (hstart : 0 < start.memlib.memStartBrk)
    {requests : List Request} (hfit : (requests.map bumpCost).sum ≤ maxHeap) :
    NeverNull bumpPackage start requests where
  malloc {done s blocks} hs index size hr := by
    have hfits := bump_fits hs hfit hr
    rw [bumpCost] at hfits
    exact bumpMalloc_of_fits ((bump_session hs).sameStart.symm ▸ hstart) (by omega)
  realloc {done s blocks} hs index size old hr _ := by
    have hfits := bump_fits hs hfit hr
    rw [bumpCost] at hfits
    have hcall : (bumpMalloc size s).1 ≠ 0 :=
      bumpMalloc_of_fits ((bump_session hs).sameStart.symm ▸ hstart) (by omega)
    change (bumpRealloc old.ptr size s).1 ≠ 0
    rw [bumpRealloc]
    split
    · next hnull => exact absurd (congrArg Prod.fst hnull) hcall
    · next p t hne hnext =>
      rw [hnext] at hcall
      exact hcall

end MallocBench
