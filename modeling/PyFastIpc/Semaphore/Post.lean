import PyFastIpc.Semaphore.Alone
import PyFastIpc.Semaphore.Tokens

/-!
# The amounts that `post` adds

`post` takes its argument modulo 2^64, so an int outside of the 64 bits is added as its remainder
where the exact sum would have been an overflow.
-/

namespace FutexSemaphore

variable {ι : Type*}

/-- The thread stays in its call. -/
def InCall (_ : Header ι × Thread) (m : Move ι) : Prop := ∀ f, m ≠ .call f

/-- Where a `post` of the reduced amount `v` is that found the count `c`. -/
def Posting (v : ℕ) (c : UInt32) (s : Header ι × Thread) : Prop :=
  match s.2.pc with
  | .peek => v = 0 ∧ s.1.count.word = c
  | .addLoad add | .addCas add _ _ => add.toNat = v ∧ s.1.count.word = c
  | .wake _ | .idle (some .none) => s.1.count.word.toNat = c.toNat + v
  | .idle (some (.raised _)) => 2 ^ 32 ≤ c.toNat + v ∧ s.1.count.word = c
  | _ => False

/-! ## Beginning -/

/-- How a `post` begins. -/
theorem entry_post_cases (n : ℤ) :
    2 ^ 32 ≤ (CInt.parseK n).toNat ∧ (Call.post n).entry = .idle (some (.raised .outOfRange)) ∨
      (CInt.parseK n).toNat = 0 ∧ (Call.post n).entry = .peek ∨
      ∃ add : UInt32, add.toNat = (CInt.parseK n).toNat ∧ (Call.post n).entry = .addLoad add := by
  have hmax : (0xFFFFFFFF : UInt64).toNat = 2 ^ 32 - 1 := rfl
  by_cases hrange : 0xFFFFFFFF < CInt.parseK n
  · have hentry : (Call.post n).entry = .idle (some (.raised .outOfRange)) := if_pos hrange
    rw [UInt64.lt_iff_toNat_lt] at hrange
    exact .inl ⟨by omega, hentry⟩
  · have hentry : (Call.post n).entry = addTokens (CInt.parseK n).toUInt32 := if_neg hrange
    rw [UInt64.lt_iff_toNat_lt] at hrange
    have hadd : (CInt.parseK n).toUInt32.toNat = (CInt.parseK n).toNat := by
      rw [UInt64.toNat_toUInt32]
      omega
    by_cases hzero : (CInt.parseK n).toUInt32 = 0
    · refine .inr (.inl ⟨?_, hentry.trans (if_pos hzero)⟩)
      rw [← hadd, hzero]
      rfl
    · exact .inr (.inr ⟨_, hadd, hentry.trans (if_neg hzero)⟩)

theorem posting_begin {h : Header ι} {c : UInt32} (t : Thread) (n : ℤ) (hword : h.count.word = c) :
    Posting (CInt.parseK n).toNat c (h, t.begin (.post n)) := by
  have hpc : (t.begin (.post n)).pc = (Call.post n).entry := rfl
  rcases entry_post_cases n with ⟨hrange, he⟩ | ⟨hzero, he⟩ | ⟨add, hadd, he⟩
  · simp only [Posting, hpc, he]
    exact ⟨by omega, hword⟩
  · simp only [Posting, hpc, he]
    exact ⟨hzero, hword⟩
  · simp only [Posting, hpc, he]
    exact ⟨hadd, hword⟩

/-! ## One step -/

section Posting

variable [DecidableEq ι] {i : ι} {pid : UInt32} {m : Move ι} {h h' : Header ι} {t t' : Thread}
  {c : UInt32} {v : ℕ}

theorem Effect.posting (he : Effect i pid m h t h' t') (hm : ∀ f, m ≠ .call f)
    (hp : Posting v c (h, t)) : Posting v c (h', t') := by
  cases he with
  | call f hcall _ => exact absurd hcall (hm f)
  | peeked hpc =>
    simp only [Posting, hpc] at hp
    obtain ⟨rfl, rfl⟩ := hp
    rfl
  | refused add hpc hov =>
    simp only [Posting, hpc] at hp
    obtain ⟨rfl, rfl⟩ := hp
    exact ⟨hov, rfl⟩
  | seen add cur room hpc => simpa only [Posting, Thread.goto, hpc] using hp
  | retry add cur room hpc => simpa only [Posting, Thread.goto, hpc] using hp
  | add add cur room _ hpc hcur =>
    simp only [Posting, hpc] at hp
    obtain ⟨rfl, rfl⟩ := hp
    have hsum : (cur + add).toNat = h.count.word.toNat + add.toNat := by
      rw [hcur, UInt32.toNat_add, Nat.mod_eq_of_lt room]
    unfold Posting Thread.add
    split_ifs <;> exact hsum
  | wake add s who hpc hs =>
    simp only [Posting, hpc] at hp
    rw [← Futex.wake_word hs] at hp
    exact hp
  | search w p hpc _ _ => cases ht : t.pc <;> simp_all [Posting, Pc.looping]
  | take w k v pos hpc _ | sleep w hpc _ | leave w p hpc _ _ | storeLastPid hpc
  | storeLastNs now hpc =>
    simp only [Posting, hpc] at hp

theorem posting_of_reach {s : Header ι × Thread} {n : ℤ} (hword : h.count.word = c)
    (hr : ((alone i pid).startAt (h, t.begin (.post n))).Reach InCall s) :
    Posting (CInt.parseK n).toNat c s := by
  refine hr.invariant (Posting (CInt.parseK n).toNat c) ?_ fun s m s' _ hp hm hs => ?_
  · rintro _ rfl
    exact posting_begin t n hword
  · exact (effect_of_step hs).posting hm hp

/-! ## The end of a call -/

/-- The call has ended. -/
def Ended (s : Header ι × Thread) : Prop := ∃ r, s.2.pc = .idle (some r)

theorem inevitable_wake {add : UInt32} (hpc : t.pc = .wake add) :
    (alone i pid).Inevitable Solo Ended (h, t) := by
  obtain ⟨who, hsub, hcard⟩ := Finset.exists_subset_card_eq
    (min_le_right (wakeCount add) h.count.sleepers.card)
  have hwake : ∃ s, step i pid (.wake who) h t = some s := by
    simp only [step, hpc, Futex.wake, if_pos (And.intro hsub hcard), Option.map_some]
    exact ⟨_, rfl⟩
  obtain ⟨s, hs⟩ := hwake
  refine .later ⟨.wake who, s, trivial, hs⟩ fun m s' hm hs => ?_
  change step i pid m h t = some s' at hs
  cases m with
  | wake who' =>
    simp only [step, hpc, Option.map_eq_some_iff] at hs
    obtain ⟨s, -, rfl⟩ := hs
    exact .now ⟨.none, rfl⟩
  | call f | weakFail => exact hm.elim
  | next | stamp now | timeout | signal => simp [step, next, hpc] at hs

/-- Every `post` ends. -/
theorem inevitable_post (t : Thread) (n : ℤ) :
    (alone i pid).Inevitable Solo Ended (h, t.begin (.post n)) := by
  have hpc : (t.begin (.post n)).pc = (Call.post n).entry := rfl
  rcases entry_post_cases n with ⟨-, he⟩ | ⟨-, he⟩ | ⟨add, -, he⟩
  · exact .now ⟨_, hpc.trans he⟩
  · have hpeek : next i pid h (t.begin (.post n)) =
        some (h, (t.begin (.post n)).goto (.idle (some .none))) := by
      simp only [next, hpc, he]
    exact inevitable_next (fun _ _ hm => hm) trivial (by rw [hpc, he]; rfl) hpeek (.now ⟨_, rfl⟩)
  · by_cases hov : overflows h.count.word add
    · have hload : next i pid h (t.begin (.post n)) =
          some (h, (t.begin (.post n)).goto (.idle (some (.raised .countOverflow)))) := by
        simp only [next, hpc, he, dif_pos hov]
      exact inevitable_next (fun _ _ hm => hm) trivial (by rw [hpc, he]; rfl) hload (.now ⟨_, rfl⟩)
    · have hload : next i pid h (t.begin (.post n)) = some (h, (t.begin (.post n)).goto
          (.addCas add h.count.word (room_of_not_overflows hov))) := by
        simp only [next, hpc, he, dif_neg hov]
      refine inevitable_next (fun _ _ hm => hm) trivial (by rw [hpc, he]; rfl) hload ?_
      have hcas : next i pid h ((t.begin (.post n)).goto
          (.addCas add h.count.word (room_of_not_overflows hov))) =
          some ({ h with count := h.count.store (h.count.word + add) },
            ((t.begin (.post n)).goto (.addCas add h.count.word (room_of_not_overflows hov))).add
              (if h.count.word = 0 then .wake add else .idle (some .none))) := if_pos rfl
      refine inevitable_next (fun _ _ hm => hm) trivial rfl hcas ?_
      by_cases hzero : h.count.word = 0
      · exact inevitable_wake (if_pos hzero)
      · exact .now ⟨.none, if_neg hzero⟩

end Posting

/-! ## Exact posts -/

section Exact

variable [DecidableEq ι] (i : ι) (pid c : UInt32) (n : ℤ)

/-- `post` adds exactly its argument, or raises and leaves the count. -/
structure PostExact : Prop where
  ends : ∀ (h : Header ι) (t : Thread), h.count.word = c → (∃ r, t.pc = .idle r) →
    (alone i pid).Inevitable Solo Ended (h, t.begin (.post n))
  outcome : ∀ (h : Header ι) (t : Thread), h.count.word = c → (∃ r, t.pc = .idle r) →
    ∀ s r, ((alone i pid).startAt (h, t.begin (.post n))).Reach InCall s →
      s.2.pc = .idle (some r) →
      if 0 ≤ n ∧ c.toNat + n < 2 ^ 32 then r = .none ∧ (s.1.count.word.toNat : ℤ) = c.toNat + n
      else (∃ e, r = .raised e) ∧ s.1.count.word = c

variable {i pid c n}

/-- An int outside of the 64 bits whose remainder has room is added as its remainder. -/
theorem not_postExact (hbig : ¬ (0 ≤ n ∧ n < 2 ^ 64)) (hroom : c.toNat + n % 2 ^ 64 < 2 ^ 32) :
    ¬ PostExact i pid c n := by
  intro hspec
  have hrem := CInt.toNat_parseK n
  obtain ⟨s, hreach, r, hr⟩ := (hspec.ends ⟨magicSEMA, 0, ⟨c, ∅⟩, 0, 0⟩ .fresh rfl
    ⟨none, rfl⟩).exists_reach
  have hcall : ((alone i pid).startAt _).Reach InCall s := hreach.mono fun s m hm f hf => by
    rw [hf] at hm
    exact hm
  have hp := posting_of_reach rfl hcall
  have hout := hspec.outcome _ _ rfl ⟨none, rfl⟩ s r hcall hr
  rw [if_neg (by omega)] at hout
  obtain ⟨⟨e, rfl⟩, -⟩ := hout
  simp only [Posting, hr] at hp
  omega

variable (i pid c n)

/-- `post` is exact for the ints that fit into 64 bits, and for the others if the remainder is too
much for the count. -/
theorem postExact_iff :
    PostExact i pid c n ↔ 0 ≤ n ∧ n < 2 ^ 64 ∨ 2 ^ 32 ≤ c.toNat + n % 2 ^ 64 := by
  have hrem := CInt.toNat_parseK n
  constructor
  · intro hspec
    by_contra hno
    obtain ⟨hbig, hroom⟩ := not_or.1 hno
    exact not_postExact hbig (by omega) hspec
  · intro hcond
    refine ⟨fun h t _ _ => inevitable_post t n, fun h t hword _ s r hr hpc => ?_⟩
    have hp := posting_of_reach hword hr
    cases r with
    | none =>
      simp only [Posting, hpc] at hp
      have hlt := s.1.count.word.toNat_lt
      rw [if_pos (by omega)]
      exact ⟨rfl, by omega⟩
    | raised e =>
      simp only [Posting, hpc] at hp
      rw [if_neg (by omega)]
      exact ⟨⟨e, rfl⟩, hp.2⟩
    | bool b | overflow => simp only [Posting, hpc] at hp

/-- An int beyond 64 bits adds one token. -/
theorem not_postExact_wrapped : ¬ PostExact Tid.a 7 0 (2 ^ 64 + 1) :=
  not_postExact (by decide) (by decide)

end Exact

end FutexSemaphore
