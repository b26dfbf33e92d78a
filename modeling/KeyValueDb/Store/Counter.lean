/-
# Counters

`incr_by` reads the text of the entry with `stoll`, adds in 64 bits and prints the sum.  What
it printed it reads back (`stoll_stdToString`), so over a run the counter is the exact total as
long as every exact sum is an `int64_t` (`counter_iff`).  The addition itself is not checked:
a sum out of range wraps around, and is stored and acknowledged.

`Counting` keeps the exact total beside the store.
-/
import KeyValueDb.Lib.Runs
import KeyValueDb.Store.Lifetime

namespace KeyValueDb

open Lib Function

/-! ## 1. A counter among other calls -/

/-- The store, and the exact total of one counter: a sum out of range is not added. -/
structure Counting where
  store : KeyValueStore
  total : Int

namespace Counting

def step (hash : Bytes → Nat) (k : Bytes) (st : Counting) (t : TimedCall) : Counting where
  store := (st.store.call hash t.order t.now t.call).2
  total :=
    match t.call with
    | .incrBy key delta =>
      if key = k ∧ IsInt64 (st.total + delta) then st.total + delta else st.total
    | _ => st.total

/-- A call of `incr_by` on the counter answers and stores the exact sum, with the deadline `dl`,
or refuses a sum out of range and leaves value and deadline alone. -/
def Exact (hash : Bytes → Nat) (k : Bytes) (dl : Option Time) (st : Counting) (t : TimedCall) :
    Prop :=
  ∀ delta, t.call = .incrBy k delta →
    let r := st.store.incrBy hash t.now k delta
    if IsInt64 (st.total + delta) then
      r.1 = (true, st.total + delta) ∧ ∃ e, (r.2.view hash).strings k = some e ∧
        e.value = stdToString (st.total + delta) ∧ e.expiresAt = dl
    else
      r.1 = (false, 0) ∧ ((r.2.view hash).strings k).map (fun e => (e.value, e.expiresAt)) =
        ((st.store.view hash).strings k).map fun e => (e.value, e.expiresAt)

/-- The exact sum of the call is an `int64_t`. -/
def InRange (k : Bytes) (st : Counting) (t : TimedCall) : Prop :=
  ∀ delta, t.call = .incrBy k delta → IsInt64 (st.total + delta)

/-- A call of `incr_by` on the counter with an `int64_t`, not before the instant `start` and
before the deadline `dl`; or a call on another key, or one that only counts or lists. -/
structure Timely (k : Bytes) (start : Time) (dl : Option Time) (t : TimedCall) : Prop where
  counts : ∀ delta, t.call = .incrBy k delta →
    IsInt64 delta ∧ start ≤ t.now ∧ ∀ d, dl = some d → t.now < d
  others : t.call.key? = some k → ∃ delta, t.call = .incrBy k delta
  clear : t.call ≠ .clear

end Counting

/-- What the key holds of a counter: nothing, a string that has expired, or a text that is read
as its total, such as the one `to_string` prints. -/
inductive FlatStore.Counts (start : Time) (k : Bytes) (dl : Option Time) (total : Int)
    (F : FlatStore) : Prop
  | absent (h : F.strings k = none) (htotal : total = 0) (hdl : dl = none)
  | expired {e : StoreEntry} (h : F.strings k = some e) (hx : e.expired start = true)
      (htotal : total = 0) (hdl : dl = none)
  | text {e : StoreEntry} (h : F.strings k = some e) (hvalue : stoll e.value = some total)
      (hdl : e.expiresAt = dl)

namespace FlatStore

variable {F : FlatStore} {k : Bytes} {start now : Time} {dl : Option Time} {total delta : Int}

theorem SameAt.counts {G : FlatStore} (h : SameAt k G F) (hF : F.Counts start k dl total) :
    G.Counts start k dl total := by
  cases hF with
  | absent hs ht hd => exact .absent (h.strings.trans hs) ht hd
  | expired hs hx ht hd => exact .expired (h.strings.trans hs) hx ht hd
  | text hs hv hd => exact .text (h.strings.trans hs) hv hd

/-! ## 2. One call -/

/-- What `incr_by` does to the text of a number. -/
theorem incrBy_of_text {e : StoreEntry} (hs : F.strings k = some e)
    (hfresh : e.expired now = false) (hvalue : stoll e.value = some total) :
    F.incrBy now k delta = ((true, wrap64 (total + delta)), F.putString k (some
      { e with value := stdToString (wrap64 (total + delta)), lastAccessed := now })) := by
  simp only [FlatStore.incrBy, hs, hfresh, hvalue, Bool.false_eq_true, if_false]

/-- **A sum in range** is answered and stored. -/
theorem Counts.incrBy (h : F.Counts start k dl total) (hstart : start ≤ now)
    (hlive : ∀ d, dl = some d → now < d) (hsum : IsInt64 (total + delta)) :
    (F.incrBy now k delta).1 = (true, total + delta) ∧
      ∃ e, (F.incrBy now k delta).2.strings k = some e ∧
        e.value = stdToString (total + delta) ∧ e.expiresAt = dl := by
  cases h with
  | absent hs ht hd =>
    subst ht hd
    rw [zero_add]
    simp [FlatStore.incrBy, hs, putString]
  | expired hs hx ht hd =>
    subst ht hd
    rw [zero_add]
    simp [FlatStore.incrBy, hs, StoreEntry.expired_mono hstart hx, putString]
  | @text e hs hv hd =>
    have hfresh : e.expired now = false := StoreEntry.not_expired_iff.mpr (hd ▸ hlive)
    rw [incrBy_of_text hs hfresh hv, wrap64_eq_self_iff.mpr hsum]
    exact ⟨rfl, _, update_self _ _ _, rfl, hd⟩

/-- **A sum out of range** is acknowledged all the same. -/
theorem Counts.incrBy_fst (h : F.Counts start k dl total) (hlive : ∀ d, dl = some d → now < d)
    (hdelta : IsInt64 delta) (hsum : ¬ IsInt64 (total + delta)) :
    (F.incrBy now k delta).1.1 = true := by
  cases h with
  | absent _ ht _ =>
    rw [ht, zero_add] at hsum
    exact absurd hdelta hsum
  | expired _ _ ht _ =>
    rw [ht, zero_add] at hsum
    exact absurd hdelta hsum
  | @text e hs hv hd =>
    have hfresh : e.expired now = false := StoreEntry.not_expired_iff.mpr (hd ▸ hlive)
    rw [incrBy_of_text hs hfresh hv]

end FlatStore

/-! ## 3. Runs -/

namespace Counting

variable {hash : Bytes → Nat} {k : Bytes} {start : Time} {dl : Option Time} {st : Counting}
  {t : TimedCall}

/-- **One call is exact** exactly when its sum is in range. -/
theorem exact_iff (h : (st.store.view hash).Counts start k dl st.total)
    (ht : Timely k start dl t) : st.Exact hash k dl t ↔ st.InRange k t := by
  have hfst : ∀ delta, (st.store.incrBy hash t.now k delta).1 =
      ((st.store.view hash).incrBy t.now k delta).1 := fun delta =>
    (Prod.ext_iff.mp (st.store.view_incrBy hash t.now k delta)).1
  have hsnd : ∀ delta, (st.store.incrBy hash t.now k delta).2.view hash =
      ((st.store.view hash).incrBy t.now k delta).2 := fun delta =>
    (Prod.ext_iff.mp (st.store.view_incrBy hash t.now k delta)).2
  constructor
  · intro hexact delta hcall
    obtain ⟨hdelta, -, hlive⟩ := ht.counts delta hcall
    by_contra hout
    have hrefused := hexact delta hcall
    simp only [hout, if_false] at hrefused
    have hacked := h.incrBy_fst hlive hdelta hout
    rw [← hfst, hrefused.1] at hacked
    exact absurd hacked Bool.false_ne_true
  · intro hrange delta hcall
    obtain ⟨-, hstart, hlive⟩ := ht.counts delta hcall
    have hsum := hrange delta hcall
    simp only [hsum, if_true]
    rw [hfst, hsnd]
    exact h.incrBy hstart hlive hsum

/-- A call whose sum is in range leaves a counter. -/
theorem counts_step (h : (st.store.view hash).Counts start k dl st.total)
    (ht : Timely k start dl t) (hrange : st.InRange k t) :
    (((st.step hash k t).store).view hash).Counts start k dl (st.step hash k t).total := by
  have hview : (st.store.call hash t.order t.now t.call).2.view hash =
      ((st.store.view hash).call t.now t.call).2 := st.store.view_call t.order t.now t.call
  by_cases hkey : t.call.key? = some k
  · obtain ⟨delta, hcall⟩ := ht.others hkey
    obtain ⟨-, hstart, hlive⟩ := ht.counts delta hcall
    have hsum := hrange delta hcall
    obtain ⟨-, e, he, hvalue, hdl⟩ := h.incrBy hstart hlive hsum
    have htotal : (st.step hash k t).total = st.total + delta := by
      simp only [step, hcall, hsum, and_self, if_true]
    rw [htotal]
    rw [hcall] at hview
    have hstored : (((st.step hash k t).store).view hash).strings k = some e := by
      rw [step, hcall, hview]
      exact he
    exact .text hstored (by rw [hvalue, stoll_stdToString hsum]) hdl
  · have htotal : (st.step hash k t).total = st.total := by
      unfold step
      dsimp only
      split
      · rename_i key delta hcall
        rw [if_neg]
        rintro ⟨rfl, -⟩
        exact hkey (by rw [hcall]; rfl)
      · rfl
    rw [htotal, step, hview]
    rcases FlatStore.call_sameAt_or t.call k (st.store.view hash) with hsame | hon | hclear
    · exact hsame.counts h
    · exact absurd hon hkey
    · exact absurd hclear ht.clear

/-- **A counter is exact over a run** exactly when every exact sum in it is an `int64_t`. -/
theorem counter_iff (hash : Bytes → Nat) (s : KeyValueStore) (k : Bytes) (start : Time)
    (dl : Option Time) (total : Int) (hs : (s.view hash).Counts start k dl total)
    (ts : List TimedCall) (hts : ∀ t ∈ ts, Timely k start dl t) :
    Steps (step hash k) (Exact hash k dl) ts ⟨s, total⟩ ↔
      Steps (step hash k) (InRange k) ts ⟨s, total⟩ :=
  steps_iff_steps (I := fun st => (st.store.view hash).Counts start k dl st.total)
    (H := fun _ t => Timely k start dl t) (fun _ _ h ht => exact_iff h ht)
    (fun _ _ h ht hrange => counts_step h ht hrange) hs (steps_of_forall hts _)

theorem counter_iff_three :
    let hash : Bytes → Nat := fun _ => 0
    let ts : List TimedCall := [⟨1, IterOrder.plain, .incrBy [99] 5⟩,
      ⟨2, IterOrder.plain, .set [107] [118] none⟩, ⟨3, IterOrder.plain, .incrBy [99] (-7)⟩]
    Steps (step hash [99]) (Exact hash [99] none) ts ⟨KeyValueStore.empty, 0⟩ := by
  intro hash ts
  have htimely : ∀ t ∈ ts, Timely [99] 0 none t := by
    intro t ht
    simp only [ts, List.mem_cons, List.not_mem_nil, or_false] at ht
    rcases ht with rfl | rfl | rfl
    · refine ⟨?_, fun _ => ⟨5, rfl⟩, by simp⟩
      rintro - ⟨rfl⟩
      decide
    · refine ⟨?_, fun h => absurd h (by decide), by simp⟩
      rintro - ⟨⟩
    · refine ⟨?_, fun _ => ⟨-7, rfl⟩, by simp⟩
      rintro - ⟨rfl⟩
      decide
  refine (counter_iff hash .empty [99] 0 none 0 (.absent rfl rfl rfl) ts htimely).mpr ?_
  refine ⟨?_, ?_, ?_, trivial⟩
  · rintro - ⟨rfl⟩
    decide
  · rintro - ⟨⟩
  · rintro - ⟨rfl⟩
    decide

/-- **`INT64_MAX` and one more** is acknowledged and stored as `INT64_MIN`. -/
theorem not_exact_of_overflow :
    let hash : Bytes → Nat := fun _ => 0
    let s := KeyValueStore.empty.set hash 0 [99] (stdToString (2 ^ 63 - 1)) none
    (s.view hash).Counts 0 [99] none (2 ^ 63 - 1) ∧
      (s.incrBy hash 1 [99] 1).1 = (true, -2 ^ 63) ∧
      ((s.incrBy hash 1 [99] 1).2.view hash).strings [99] =
        some ⟨stdToString (-2 ^ 63), none, 1⟩ ∧
      ¬ Steps (step hash [99]) (Exact hash [99] none) [⟨1, IterOrder.plain, .incrBy [99] 1⟩]
        ⟨s, 2 ^ 63 - 1⟩ := by
  intro hash s
  have hs : (s.view hash).strings [99] = some ⟨stdToString (2 ^ 63 - 1), none, 0⟩ := by rfl
  have hread : stoll (stdToString (2 ^ 63 - 1)) = some (2 ^ 63 - 1) :=
    stoll_stdToString (by decide)
  have hincr : (s.view hash).incrBy 1 [99] 1 = ((true, wrap64 (2 ^ 63 - 1 + 1)), _) :=
    FlatStore.incrBy_of_text hs rfl hread
  rw [show wrap64 (2 ^ 63 - 1 + 1) = -2 ^ 63 by decide] at hincr
  obtain ⟨hfst, hsnd⟩ := Prod.ext_iff.mp ((s.view_incrBy hash 1 [99] 1).trans hincr)
  dsimp only at hfst hsnd
  have hafter : ((s.incrBy hash 1 [99] 1).2.view hash).strings [99] =
      some ⟨stdToString (-2 ^ 63), none, 1⟩ := by
    rw [hsnd, FlatStore.putString]
    dsimp only
    rw [update_self]
  refine ⟨.text hs hread rfl, hfst, hafter, ?_⟩
  intro h
  have hexact := h.1 1 rfl
  rw [if_neg (by decide), hfst] at hexact
  exact absurd hexact.1 (by decide)

end Counting

end KeyValueDb
