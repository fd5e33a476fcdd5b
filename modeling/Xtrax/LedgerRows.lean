import Xtrax.LedgerMachine

/-! # No ledger row is lost under one pass

One compaction pass among any number of runs that close their ledgers: does `iter_rows`
still yield the row of a `(run_id, kind)` that was written last?

The pass reads its rows before it lists the segments it will move.  A row it does not read
survives only in a segment it does not move, and of the rows of one `(run_id, kind)` the
pass keeps the one it reads last.  `WriteSafe` says which writes are safe from both.

`Kept` follows the last row of a pair through the pass: it speaks for its pair in the rows
read so far followed by the files still to be read; then it is among the kept rows or in a
segment outside the list; then it is in a file that will not be moved.
-/
namespace Xtrax.Ledger

open Disk List Option LastWins Interleaving

namespace Dir
variable {dir : Dir} {n i : Nat}

theorem split_ino? (h : dir.ino? n = some i) : ∃ front, dir = front ++ (n, i) :: dir.after n := by
  induction dir with
  | nil => cases h
  | cons e dir ih =>
    by_cases he : e.1 = n
    · have hei : e.2 = i := by simpa [ino?, find?_cons, he] using h
      refine ⟨[], ?_⟩
      have hcons : after (e :: dir) n = dir := by simp [after, he]
      rw [hcons, ← he, ← hei]
      rfl
    · have htail : ino? dir n = some i := by simpa [ino?, find?_cons, he] using h
      obtain ⟨front, hfront⟩ := ih htail
      refine ⟨e :: front, ?_⟩
      have hcons : after (e :: dir) n = after dir n := by simp [after, he]
      rw [hcons, cons_append, ← hfront]

end Dir

/-- The files listed after `src`. -/
def afterSource (todo : List Source) (src : Source) : List Source :=
  (todo.dropWhile (· ≠ src)).drop 1

theorem split_source {todo : List Source} {src : Source} (h : src ∈ todo) :
    ∃ front, todo = front ++ src :: afterSource todo src := by
  induction todo with
  | nil => cases h
  | cons s todo ih =>
    by_cases hs : s = src
    · subst hs
      exact ⟨[], by simp [afterSource]⟩
    · obtain ⟨front, hfront⟩ := ih ((mem_cons.mp h).resolve_left (Ne.symm hs))
      refine ⟨s :: front, ?_⟩
      have hcons : afterSource (s :: todo) src = afterSource todo src := by simp [afterSource, hs]
      rw [hcons, cons_append, ← hfront]

namespace Disk
variable (d : Disk)

/-- The rows a reader of a path gets; none when the file is gone. -/
def content (src : Source) : List RunLedgerRecord := ((d.ino? src).map d.lines).getD []

theorem content_sealed (n : Nat) :
    d.content (.sealed n) = ((d.sealed.ino? n).map d.lines).getD [] := rfl

theorem content_segment (n : Nat) :
    d.content (.segment n) = ((d.segments.ino? n).map d.lines).getD [] := rfl

/-- The rows of the segments outside a list of names. -/
def outside (segments : List Nat) : List RunLedgerRecord :=
  d.rows (d.segments.filter fun e => e.1 ∉ segments)

/-- The rows of the files that are not in a list of files to move. -/
def unmoved (todo : List Source) : List RunLedgerRecord :=
  d.rows (d.sealed.filter fun e => Source.sealed e.1 ∉ todo) ++
    d.rows (d.segments.filter fun e => Source.segment e.1 ∉ todo)

end Disk

/-- A write of `row` to the file `i` that the pass does not lose: the file is still at its path,
the pass has not yet read it and will, or will not move it, and no file the pass reads after it
holds a row of the same pair. -/
def WriteSafe (dry : Bool) (d : Disk) (pc : PassPc) (row : RunLedgerRecord) (i : Nat) : Prop :=
  ∃ n ∈ d.segments.names, d.segments.ino? n = some i ∧
    match pc with
    | .ready | .listing _ => dry ∨ ∀ row' ∈ d.rows (d.segments.after n), row'.key ≠ row.key
    | .reading todo _ => dry ∨ Source.segment n ∈ todo ∧
        ∀ row' ∈ (afterSource todo (.segment n)).flatMap d.content, row'.key ≠ row.key
    | .relisting _ => dry = true
    | .resealing _ segments | .writing _ _ segments | .replacing _ segments => n ∉ segments
    | .moving todo => Source.segment n ∉ todo
    | _ => True

instance (dry : Bool) (d : Disk) (pc : PassPc) (row : RunLedgerRecord) (i : Nat) :
    Decidable (WriteSafe dry d pc row i) := by
  unfold WriteSafe
  have (n : Nat) : Decidable (match pc with
      | .ready | .listing _ => dry ∨ ∀ row' ∈ d.rows (d.segments.after n), row'.key ≠ row.key
      | .reading todo _ => dry ∨ Source.segment n ∈ todo ∧
          ∀ row' ∈ (afterSource todo (.segment n)).flatMap d.content, row'.key ≠ row.key
      | .relisting _ => dry = true
      | .resealing _ segments | .writing _ _ segments | .replacing _ segments => n ∉ segments
      | .moving todo => Source.segment n ∉ todo
      | _ => True) := by
    split <;> infer_instance
  infer_instance

def SafeWrites {P : Type} (args : Unit → CompactArgs) (s : State P Unit) : Event P Unit → Prop
  | .run p .advance =>
    match s.run p with
    | .writing row i => WriteSafe (args ()).dryRun s.disk (s.pass ()) row i
    | _ => True
  | _ => True

instance {P : Type} (args : Unit → CompactArgs) (s : State P Unit) :
    ∀ e, Decidable (SafeWrites args s e)
  | .run p .advance => by
    unfold SafeWrites
    dsimp only
    split <;> infer_instance
  | .run _ (.put _) | .run _ (.store _) | .run _ .storeFails | .run _ (.close _)
  | .run _ .crash | .pass _ | .stop _ => .isTrue trivial

/-! ## The last row of a pair, from phase to phase -/

/-- Where the row `r` that was written last for the pair `k` is safe from the pass. -/
def Kept (dry : Bool) (d : Disk) (tmp : Nat → Option (List RunLedgerRecord)) (pc : PassPc)
    (k : String × String) (r : RunLedgerRecord) : Prop :=
  match pc with
  | .ready | .listing _ => dry ∨ lastFor RunLedgerRecord.key k d.iterRows = some r
  | .reading todo rows =>
    dry ∨ lastFor RunLedgerRecord.key k (rows ++ todo.flatMap d.content) = some r
  | .relisting rows => dry ∨ lastFor RunLedgerRecord.key k rows = some r
  | .resealing kept segments | .writing kept _ segments => r ∈ kept ∨ r ∈ d.outside segments
  | .replacing existing segments =>
    (∃ kept, tmp (Disk.nextIndex existing) = some kept ∧ r ∈ kept) ∨ r ∈ d.outside segments
  | .moving todo => r ∈ d.unmoved todo
  | _ => True

/-- The pass has not put its sealed file in place. -/
def PassPc.beforeReplace : PassPc → Prop
  | ready | listing _ | reading _ _ | relisting _ | resealing _ _ | writing _ _ _
  | replacing _ _ => True
  | _ => False

/-- A listing of `sealed/` in the pass's hands is what `sealed/` holds. -/
def Listed (d : Disk) : PassPc → Prop
  | .listing sealed => sealed = d.sealed.names
  | .writing _ existing _ | .replacing existing _ => existing = d.sealed.names
  | _ => True

/-- The invariant of a ledger with one pass: the last row of every pair is read, and
kept. -/
structure Safe (dry : Bool) (d : Disk) (tmp : Nat → Option (List RunLedgerRecord)) (pc : PassPc)
    (log : List RunLedgerRecord) : Prop where
  named : d.Named
  sorted : pc.beforeReplace → d.sealed.names.Pairwise (· < ·)
  listed : Listed d pc
  present : ∀ k r, lastFor RunLedgerRecord.key k log = some r → r ∈ d.iterRows
  kept : ∀ k r, lastFor RunLedgerRecord.key k log = some r → Kept dry d tmp pc k r

variable {dry : Bool} {d d' : Disk} {tmp : Nat → Option (List RunLedgerRecord)} {pc pc' : PassPc}
  {log : List RunLedgerRecord} {k : String × String} {r row : RunLedgerRecord} {n i : Nat}

/-! ## Opening a segment -/

namespace Disk

theorem segments_openAppend (n : Nat) :
    (d.openAppend n).2.segments = d.segments ∨
      n ∉ d.segments.names ∧ ∃ front back, d.segments = front ++ back ∧
        (d.openAppend n).2.segments = front ++ (n, d.next) :: back ∧
        (d.openAppend n).2.lines d.next = [] := by
  unfold openAppend
  cases hi : d.segments.ino? n with
  | some i => exact .inl rfl
  | none =>
    have hn := Dir.ino?_eq_none_iff.mp hi
    obtain ⟨front, back, hd, hset⟩ := Dir.set_split (i := d.next) hn
    exact .inr ⟨hn, front, back, hd, hset, by simp⟩

theorem rows_openAppend {dir : Dir} (hdir : ∀ e ∈ dir, e.2 < d.next) (n : Nat) :
    (d.openAppend n).2.rows dir = d.rows dir :=
  rows_congr fun e he => lines_openAppend n (hdir e he)

theorem iterRows_openAppend (h : d.Named) (n : Nat) : (d.openAppend n).2.iterRows = d.iterRows := by
  rw [iterRows, iterRows, openAppend_sealed, rows_openAppend h.sealed_lt]
  congr 1
  rcases segments_openAppend (d := d) n with hsame | ⟨-, front, back, hd, hnew, hempty⟩
  · rw [hsame, rows_openAppend h.segments_lt]
  · have hlt := h.segments_lt
    rw [hd] at hlt
    rw [hnew, hd, rows_append, rows_cons, rows_append, hempty, nil_append,
      rows_openAppend fun e he => hlt e (mem_append_left _ he),
      rows_openAppend fun e he => hlt e (mem_append_right _ he)]

theorem content_openAppend (h : d.Named) (n : Nat) (src : Source) :
    (d.openAppend n).2.content src = d.content src := by
  cases src with
  | sealed m =>
    rw [content_sealed, content_sealed, openAppend_sealed]
    cases hi : d.sealed.ino? m with
    | none => rfl
    | some i =>
      have hlt : i < d.next := h.sealed_lt _ (Dir.mem_of_ino? hi)
      rw [map_some, map_some, lines_openAppend n hlt]
  | segment m =>
    have hnd := (named_openAppend h n).segments_nodup
    rw [content_segment, content_segment]
    cases hi : d.segments.ino? m with
    | some i =>
      have hlt : i < d.next := h.segments_lt _ (Dir.mem_of_ino? hi)
      have hmem : (m, i) ∈ (d.openAppend n).2.segments := by
        rcases segments_openAppend (d := d) n with hsame | ⟨-, front, back, hd, hnew, -⟩
        · exact hsame ▸ Dir.mem_of_ino? hi
        · have := Dir.mem_of_ino? hi
          rw [hd] at this
          rw [hnew]
          rcases mem_append.mp this with hm | hm
          · exact mem_append_left _ hm
          · exact mem_append_right _ (mem_cons_of_mem _ hm)
      rw [Dir.ino?_of_mem hnd hmem, map_some, map_some, lines_openAppend n hlt]
    | none =>
      cases hi' : (d.openAppend n).2.segments.ino? m with
      | none => rfl
      | some j =>
        -- the only name that is new is the new file's, and that is empty
        have hmem := Dir.mem_of_ino? hi'
        rcases segments_openAppend (d := d) n with hsame | ⟨-, front, back, hd, hnew, hempty⟩
        · rw [hsame] at hi'
          rw [hi] at hi'
          cases hi'
        · have hold : (m, j) ∉ d.segments := fun hm =>
            Dir.ino?_eq_none_iff.mp hi (mem_map_of_mem hm)
          rw [hd] at hold
          rw [hnew] at hmem
          have hmj : (m, j) = (n, d.next) := by
            rcases mem_append.mp hmem with hm | hm
            · exact absurd (mem_append_left _ hm) hold
            · exact (mem_cons.mp hm).resolve_right fun hm => hold (mem_append_right _ hm)
          obtain rfl : j = d.next := (Prod.ext_iff.mp hmj).2
          rw [map_some, hempty]
          rfl

theorem mem_rows_filter_openAppend (h : d.Named) (n : Nat) (p : Nat × Nat → Bool)
    (hr : r ∈ d.rows (d.segments.filter p)) :
    r ∈ (d.openAppend n).2.rows ((d.openAppend n).2.segments.filter p) := by
  obtain ⟨e, he, hline⟩ := mem_rows.mp hr
  obtain ⟨hmem, hp⟩ := mem_filter.mp he
  refine mem_rows.mpr ⟨e, mem_filter.mpr ⟨?_, hp⟩, ?_⟩
  · rcases segments_openAppend (d := d) n with hsame | ⟨-, front, back, hd, hnew, -⟩
    · exact hsame ▸ hmem
    · rw [hd] at hmem
      rw [hnew]
      rcases mem_append.mp hmem with hm | hm
      · exact mem_append_left _ hm
      · exact mem_append_right _ (mem_cons_of_mem _ hm)
  · rwa [lines_openAppend n (h.segments_lt e hmem)]

end Disk

theorem safe_openAppend (h : Safe dry d tmp pc log) (n : Nat) :
    Safe dry (d.openAppend n).2 tmp pc log where
  named := named_openAppend h.named n
  sorted hpc := by simpa using h.sorted hpc
  listed := by
    have := h.listed
    unfold Listed at this ⊢
    rwa [openAppend_sealed]
  present k r hr := by
    rw [iterRows_openAppend h.named]
    exact h.present k r hr
  kept k r hr := by
    have hkept := h.kept k r hr
    have hcontent : (d.openAppend n).2.content = d.content :=
      funext fun src => content_openAppend h.named n src
    cases pc with
    | ready | listing =>
      simpa only [Kept, iterRows_openAppend h.named] using hkept
    | reading => simpa only [Kept, hcontent] using hkept
    | resealing kept segments | writing kept existing segments | replacing existing segments =>
      exact hkept.imp_right (mem_rows_filter_openAppend h.named n _)
    | moving todo =>
      refine mem_append.mpr ((mem_append.mp hkept).imp (fun hs => ?_)
        (mem_rows_filter_openAppend h.named n _))
      rw [openAppend_sealed, rows_openAppend fun e he => h.named.sealed_lt e (mem_filter.mp he).1]
      exact hs
    | relisting => exact hkept
    | _ => trivial

/-! ## Writing a row -/

namespace Disk

theorem mem_rows_append {dir : Dir} (hr : r ∈ d.rows dir) : r ∈ (d.append i row).rows dir := by
  obtain ⟨e, he, hline⟩ := mem_rows.mp hr
  exact mem_rows.mpr ⟨e, he, mem_lines_append.mpr (.inl hline)⟩

theorem mem_of_mem_rows_append {dir : Dir} (hr : r ∈ (d.append i row).rows dir) :
    r ∈ d.rows dir ∨ r = row := by
  obtain ⟨e, he, hline⟩ := mem_rows.mp hr
  rcases mem_lines_append.mp hline with hold | ⟨-, hnew⟩
  · exact .inl (mem_rows.mpr ⟨e, he, hold⟩)
  · exact .inr hnew

theorem mem_of_mem_content_append {todo : List Source}
    (hr : r ∈ todo.flatMap (d.append i row).content) : r ∈ todo.flatMap d.content ∨ r = row := by
  obtain ⟨src, hsrc, hcontent⟩ := mem_flatMap.mp hr
  have hino : (d.append i row).ino? src = d.ino? src := by cases src <;> rfl
  unfold content at hcontent
  rw [hino] at hcontent
  cases hi : d.ino? src with
  | none => simp [hi] at hcontent
  | some j =>
    rw [hi] at hcontent
    rcases mem_lines_append.mp hcontent with hold | ⟨-, hnew⟩
    · exact .inl (mem_flatMap.mpr ⟨src, hsrc, by simpa [content, hi] using hold⟩)
    · exact .inr hnew

theorem filter_lines_append (hk : row.key ≠ k) (j : Nat) :
    ((d.append i row).lines j).filter (fun r => r.key = k) =
      (d.lines j).filter fun r => r.key = k := by
  by_cases hj : j = i
  · subst hj
    simp [append, hk]
  · simp [append, hj]

theorem lastFor_rows_append (hk : row.key ≠ k) (dir : Dir) :
    lastFor RunLedgerRecord.key k ((d.append i row).rows dir) =
      lastFor RunLedgerRecord.key k (d.rows dir) := by
  simp only [lastFor, rows, filter_flatMap, filter_lines_append hk]

theorem lastFor_content_append (hk : row.key ≠ k) (todo : List Source) :
    lastFor RunLedgerRecord.key k (todo.flatMap (d.append i row).content) =
      lastFor RunLedgerRecord.key k (todo.flatMap d.content) := by
  simp only [lastFor, filter_flatMap]
  congr 1
  refine flatMap_congr fun src _ => ?_
  have hino : (d.append i row).ino? src = d.ino? src := by cases src <;> rfl
  unfold content
  rw [hino]
  cases d.ino? src with
  | none => rfl
  | some j => exact filter_lines_append hk j

theorem mem_rows_of_segment {dir : Dir} (hmem : (n, i) ∈ dir) : row ∈ (d.append i row).rows dir :=
  mem_rows.mpr ⟨(n, i), hmem, mem_lines_append.mpr (.inr ⟨rfl, rfl⟩)⟩

end Disk

theorem kept_append_other (hk : row.key ≠ k) (h : Kept dry d tmp pc k r) :
    Kept dry (d.append i row) tmp pc k r := by
  cases pc with
  | ready | listing =>
    refine h.imp_right fun hlast => ?_
    rw [iterRows, lastFor_append] at hlast ⊢
    rwa [lastFor_rows_append hk, lastFor_rows_append hk]
  | reading =>
    refine h.imp_right fun hlast => ?_
    rw [lastFor_append] at hlast ⊢
    rwa [lastFor_content_append hk]
  | resealing | writing | replacing => exact h.imp_right mem_rows_append
  | moving =>
    exact mem_append.mpr ((mem_append.mp h).imp mem_rows_append
      mem_rows_append)
  | relisting => exact h
  | _ => trivial

theorem kept_append_self (hsafe : WriteSafe dry d pc row i) :
    Kept dry (d.append i row) tmp pc row.key row := by
  obtain ⟨n, -, hino, hpc⟩ := hsafe
  obtain ⟨front, hsplit⟩ := Dir.split_ino? hino
  have hmem : (n, i) ∈ d.segments := Dir.mem_of_ino? hino
  have hself : (d.append i row).lines i = d.lines i ++ [row] := by simp [append]
  cases pc with
  | ready | listing =>
    refine hpc.imp_right fun hlater => ?_
    have hrows : (d.append i row).iterRows = ((d.append i row).rows d.sealed ++
        (d.append i row).rows front ++ d.lines i) ++
          row :: (d.append i row).rows (d.segments.after n) := by
      have : (d.append i row).iterRows = (d.append i row).rows d.sealed ++
          (d.append i row).rows (front ++ (n, i) :: d.segments.after n) := by
        rw [← hsplit]
        rfl
      rw [this, rows_append, rows_cons, hself]
      simp only [append_assoc, cons_append, nil_append]
    rw [hrows]
    refine lastFor_append_cons fun b hb hkey => ?_
    exact (mem_of_mem_rows_append hb).resolve_left fun hold => hlater b hold hkey
  | reading todo rows =>
    refine hpc.imp_right ?_
    rintro ⟨htodo, hlater⟩
    obtain ⟨before, hsource⟩ := split_source htodo
    have hcontent : (d.append i row).content (.segment n) = d.lines i ++ [row] := by
      have : (d.append i row).segments.ino? n = some i := hino
      rw [content_segment, this, ← hself]
      rfl
    have hrows : rows ++ todo.flatMap (d.append i row).content =
        (rows ++ before.flatMap (d.append i row).content ++ d.lines i) ++
          row :: (afterSource todo (.segment n)).flatMap (d.append i row).content := by
      have : todo.flatMap (d.append i row).content =
          (before ++ Source.segment n :: afterSource todo (.segment n)).flatMap
            (d.append i row).content := by rw [← hsource]
      rw [this, flatMap_append, flatMap_cons, hcontent]
      simp only [append_assoc, cons_append, nil_append]
    rw [hrows]
    refine lastFor_append_cons fun b hb hkey => ?_
    exact (mem_of_mem_content_append hb).resolve_left fun hold => hlater b hold hkey
  | relisting => exact .inl hpc
  | resealing kept segments | writing kept existing segments | replacing existing segments =>
    refine .inr (mem_rows_of_segment (n := n) (mem_filter.mpr ⟨hmem, ?_⟩))
    simpa using hpc
  | moving todo =>
    refine mem_append_right _ (mem_rows_of_segment (n := n) (mem_filter.mpr ⟨hmem, ?_⟩))
    simpa using hpc
  | _ => trivial

theorem safe_append (h : Safe dry d tmp pc log) (hsafe : WriteSafe dry d pc row i) :
    Safe dry (d.append i row) tmp pc (log ++ [row]) where
  named := named_append h.named i row
  sorted := h.sorted
  listed := h.listed
  present k r hr := by
    rw [lastFor_concat] at hr
    by_cases hk : row.key = k
    · rw [if_pos hk] at hr
      obtain rfl := some.inj hr
      obtain ⟨n, -, hino, -⟩ := hsafe
      exact mem_append_right _ (mem_rows_of_segment (Dir.mem_of_ino? hino))
    · rw [if_neg hk] at hr
      exact mem_append.mpr ((mem_append.mp (h.present k r hr)).imp mem_rows_append mem_rows_append)
  kept k r hr := by
    rw [lastFor_concat] at hr
    by_cases hk : row.key = k
    · rw [if_pos hk] at hr
      obtain rfl := some.inj hr
      subst hk
      exact kept_append_self hsafe
    · rw [if_neg hk] at hr
      exact kept_append_other hk (h.kept k r hr)

/-! ## The steps of the pass -/

theorem safe_goto (h : Safe dry d tmp pc log) (hsorted : pc'.beforeReplace → pc.beforeReplace)
    (hlisted : Listed d pc') (hkept : ∀ k r, Kept dry d tmp pc k r → Kept dry d tmp pc' k r) :
    Safe dry d tmp pc' log :=
  ⟨h.named, fun hpc => h.sorted (hsorted hpc), hlisted, h.present,
    fun k r hr => hkept k r (h.kept k r hr)⟩

namespace Disk

theorem content_of_mem (h : d.Named) {e : Nat × Nat} :
    (e ∈ d.sealed → d.content (.sealed e.1) = d.lines e.2) ∧
      (e ∈ d.segments → d.content (.segment e.1) = d.lines e.2) := by
  constructor
  · intro he
    rw [content_sealed, Dir.ino?_of_mem h.sealed_nodup he]
    rfl
  · intro he
    rw [content_segment, Dir.ino?_of_mem h.segments_nodup he]
    rfl

theorem content_moves (h : d.Named) :
    (moves d.sealed.names d.segments.names).flatMap d.content = d.iterRows := by
  simp only [moves, Dir.names, List.map_map, List.flatMap_append, List.flatMap_map, iterRows, rows]
  congr 1
  · exact List.flatMap_congr fun e he => (content_of_mem h).1 he
  · exact List.flatMap_congr fun e he => (content_of_mem h).2 he

theorem outside_writeSealed (h : d.Named) (n : Nat) (kept : List RunLedgerRecord)
    (segments : List Nat) : (d.writeSealed n kept).outside segments = d.outside segments :=
  rows_congr fun e he => lines_writeSealed n kept (h.segments_lt e (mem_filter.mp he).1)

end Disk

theorem safe_replace {existing segments : List Nat} {kept : List RunLedgerRecord}
    (h : Safe dry d tmp (.replacing existing segments) log)
    (hkept : tmp (nextIndex existing) = some kept) :
    Safe dry (d.writeSealed (nextIndex existing) kept)
      (Function.update tmp (nextIndex existing) none)
      (.moving (moves existing segments)) log where
  named := named_writeSealed h.named _ _
  sorted := False.elim
  listed := trivial
  present k r hr := by
    obtain ⟨e, he, hline⟩ | ⟨e, he, hline⟩ := (mem_append.mp (h.present k r hr)).imp
      mem_rows.mp mem_rows.mp
    · have hne : e.1 ≠ nextIndex existing := by
        have hlt := lt_nextIndex (h.sorted trivial) e.1 (mem_map_of_mem he)
        rw [show existing = d.sealed.names from h.listed]
        exact Nat.ne_of_lt hlt
      refine mem_append_left _ (mem_rows.mpr ⟨e, Dir.mem_set.mpr (.inr ⟨he, hne⟩), ?_⟩)
      rwa [lines_writeSealed _ _ (h.named.sealed_lt e he)]
    · refine mem_append_right _ (mem_rows.mpr ⟨e, he, ?_⟩)
      rwa [lines_writeSealed _ _ (h.named.segments_lt e he)]
  kept k r hr := by
    rcases h.kept k r hr with ⟨kept', hkept', hr⟩ | hr
    · obtain rfl : kept' = kept := some.inj (hkept'.symm.trans hkept)
      refine mem_append_left _ (mem_rows.mpr ⟨(nextIndex existing, d.next), ?_, ?_⟩)
      · refine mem_filter.mpr ⟨Dir.mem_set.mpr (.inl rfl), ?_⟩
        have : nextIndex existing ∉ existing := fun hmem => Nat.lt_irrefl _
          (lt_nextIndex (by rw [show existing = d.sealed.names from h.listed];
                                 exact h.sorted trivial) _ hmem)
        simpa [moves] using this
      · simpa [writeSealed] using hr
    · rw [← outside_writeSealed h.named (nextIndex existing) kept] at hr
      obtain ⟨e, he, hline⟩ := mem_rows.mp hr
      obtain ⟨hmem, hout⟩ := mem_filter.mp he
      refine mem_append_right _ (mem_rows.mpr ⟨e, mem_filter.mpr ⟨hmem, ?_⟩, hline⟩)
      simpa [moves] using hout

theorem safe_move {src : Source} {todo : List Source}
    (h : Safe dry d tmp (.moving (src :: todo)) log) (hd' : d.move src = some d') :
    Safe dry d' tmp (.moving todo) log := by
  have hnamed := named_move h.named hd'
  have hkept : ∀ r, r ∈ d.unmoved (src :: todo) → r ∈ d'.unmoved todo ∧ r ∈ d'.iterRows := by
    obtain ⟨i, -, rfl⟩ := move_eq_some hd'
    intro r hr
    obtain ⟨e, he, hline⟩ | ⟨e, he, hline⟩ := (mem_append.mp hr).imp mem_rows.mp mem_rows.mp
    · obtain ⟨hmem, hout⟩ := mem_filter.mp he
      obtain ⟨hsrc, htodo⟩ : Source.sealed e.1 ≠ src ∧ Source.sealed e.1 ∉ todo := by
        simpa using hout
      have hmem' : e ∈ ((d.unlink src).putArchive src i).sealed := by
        rw [putArchive, unlink_sealed]
        exact mem_filter.mpr ⟨hmem, by simpa using hsrc⟩
      have hline' : r ∈ ((d.unlink src).putArchive src i).lines e.2 := by
        simpa [putArchive] using hline
      exact ⟨mem_append_left _ (mem_rows.mpr
          ⟨e, mem_filter.mpr ⟨hmem', by simpa using htodo⟩, hline'⟩),
        mem_append_left _ (mem_rows.mpr ⟨e, hmem', hline'⟩)⟩
    · obtain ⟨hmem, hout⟩ := mem_filter.mp he
      obtain ⟨hsrc, htodo⟩ : Source.segment e.1 ≠ src ∧ Source.segment e.1 ∉ todo := by
        simpa using hout
      have hmem' : e ∈ ((d.unlink src).putArchive src i).segments := by
        rw [putArchive, unlink_segments]
        exact mem_filter.mpr ⟨hmem, by simpa using hsrc⟩
      have hline' : r ∈ ((d.unlink src).putArchive src i).lines e.2 := by
        simpa [putArchive] using hline
      exact ⟨mem_append_right _ (mem_rows.mpr
          ⟨e, mem_filter.mpr ⟨hmem', by simpa using htodo⟩, hline'⟩),
        mem_append_right _ (mem_rows.mpr ⟨e, hmem', hline'⟩)⟩
  exact
    { named := hnamed
      sorted := False.elim
      listed := trivial
      present := fun k r hr => (hkept r (h.kept k r hr)).2
      kept := fun k r hr => (hkept r (h.kept k r hr)).1 }

section
variable {P : Type} [DecidableEq P]

/-- The invariant of a state of the machine with one pass. -/
def SafeState (args : CompactArgs) (s : State P Unit) : Prop :=
  Safe args.dryRun s.disk s.tmp (s.pass ()) s.log

omit [DecidableEq P] in
theorem safeState_goto {args : CompactArgs} {s : State P Unit}
    (h : Safe args.dryRun s.disk s.tmp pc s.log) : SafeState args (s.gotoPass () pc) := by
  unfold SafeState
  rwa [gotoPass_self]

theorem safe_past (h : Safe dry d tmp pc log)
    (hpc : pc'.collecting ∨ pc' = .done ∨ pc' = .raised) : Safe dry d tmp pc' log := by
  refine ⟨h.named, fun hb => ?_, ?_, h.present, fun k r _ => ?_⟩
  all_goals
    cases pc' with
    | done | raised | scanning | scanReading | listingBlobs | deleting | stating | refinding
    | unlinking => first | exact hb.elim | trivial
    | _ => simp [PassPc.collecting] at hpc

omit [DecidableEq P] in
theorem safe_passStep {args : CompactArgs} {s t : State P Unit} (h : SafeState args s)
    (ht : passStep args s () = some t) : SafeState args t := by
  have hsafe : Safe args.dryRun s.disk s.tmp (s.pass ()) s.log := h
  cases hpc : s.pass () with
  | ready =>
    rw [hpc] at hsafe
    by_cases hdue : args.due s.disk
    · obtain rfl := by simpa [passStep, hpc, hdue] using ht
      exact safeState_goto (safe_goto hsafe id rfl fun _ _ hk => hk)
    · obtain rfl := by simpa [passStep, hpc, hdue] using ht
      exact safeState_goto (safe_past hsafe (.inr (.inl rfl)))
  | listing sealed =>
    rw [hpc] at hsafe
    obtain rfl := by simpa [passStep, hpc] using ht
    refine safeState_goto (safe_goto hsafe id trivial fun k r hk => hk.imp_right fun hlast => ?_)
    rwa [show sealed = s.disk.sealed.names from hsafe.listed, nil_append,
      content_moves hsafe.named]
  | reading todo rows =>
    rw [hpc] at hsafe
    cases todo with
    | nil =>
      obtain rfl := by simpa [passStep, hpc] using ht
      refine safeState_goto (safe_goto hsafe id trivial fun k r hk => hk.imp_right fun hlast => ?_)
      simpa using hlast
    | cons src todo =>
      cases hi : s.disk.ino? src with
      | none =>
        obtain rfl := by simpa [passStep, hpc, hi] using ht
        exact safeState_goto (safe_past hsafe (.inr (.inr rfl)))
      | some i =>
        obtain rfl := by simpa [passStep, hpc, hi] using ht
        refine safeState_goto
          (safe_goto hsafe id trivial fun k r hk => hk.imp_right fun hlast => ?_)
        simpa [content, hi] using hlast
  | relisting rows =>
    rw [hpc] at hsafe
    by_cases hdry : args.dryRun
    · obtain rfl := by simpa [passStep, hpc, hdry] using ht
      exact safeState_goto (safe_past hsafe (.inr (.inl rfl)))
    · obtain rfl := by simpa [passStep, hpc, hdry] using ht
      refine safeState_goto (safe_goto hsafe id trivial fun k r hk => .inl ?_)
      -- the rows are read: what speaks for a pair is what `_dedup` keeps of it
      have hlast := hk.resolve_left hdry
      refine mem_keepLast.mpr ?_
      rwa [key_of_lastFor hlast]
  | resealing kept segments =>
    rw [hpc] at hsafe
    obtain rfl := by simpa [passStep, hpc] using ht
    exact safeState_goto (safe_goto hsafe id rfl fun _ _ hk => hk)
  | writing kept existing segments =>
    rw [hpc] at hsafe
    obtain rfl := by simpa [passStep, hpc] using ht
    refine safeState_goto ⟨hsafe.named, hsafe.sorted, hsafe.listed, hsafe.present, fun k r hr => ?_⟩
    exact (hsafe.kept k r hr).imp_left fun hmem => ⟨kept, Function.update_self .., hmem⟩
  | replacing existing segments =>
    rw [hpc] at hsafe
    cases hkept : s.tmp (nextIndex existing) with
    | none =>
      obtain rfl := by simpa [passStep, hpc, hkept] using ht
      exact safeState_goto (safe_past hsafe (.inr (.inr rfl)))
    | some kept =>
      obtain rfl := by simpa [passStep, hpc, hkept] using ht
      exact safeState_goto (safe_replace hsafe hkept)
  | moving todo =>
    rw [hpc] at hsafe
    cases todo with
    | nil =>
      by_cases hgc : args.gcBlobs
      · obtain rfl := by simpa [passStep, hpc, hgc] using ht
        exact safeState_goto (safe_past hsafe (.inl rfl))
      · obtain rfl := by simpa [passStep, hpc, hgc] using ht
        exact safeState_goto (safe_past hsafe (.inr (.inl rfl)))
    | cons src todo =>
      cases hmove : s.disk.move src with
      | none =>
        obtain rfl := by simpa [passStep, hpc, hmove] using ht
        exact safeState_goto (safe_past hsafe (.inr (.inr rfl)))
      | some d =>
        obtain rfl := by simpa [passStep, hpc, hmove] using ht
        exact safeState_goto (safe_move hsafe hmove)
  | done | raised => simp [passStep, hpc] at ht
  | scanning | scanReading | listingBlobs | deleting | stating | refinding | unlinking =>
    obtain ⟨hd, htmp, hlog, hpc'⟩ := passStep_collecting (by rw [hpc]; rfl) ht
    unfold SafeState
    rw [hd, htmp, hlog]
    exact safe_past hsafe hpc'

/-! ## Runs -/

variable {lineBytes : RunLedgerRecord → Nat} {args : Unit → CompactArgs}

def RunPc.written? : RunPc → Option RunLedgerRecord
  | unlocking row _ | closed row => some row
  | _ => none

/-- The invariant of the machine: the ledger is safe, and a written row is in the log. -/
structure Intact (args : Unit → CompactArgs) (s : State P Unit) : Prop where
  safe : SafeState (args ()) s
  logged : ∀ p row, (s.run p).written? = some row → row ∈ s.log

theorem logged_update {run : P → RunPc} {p : P} {c : RunPc} {log log' : List RunLedgerRecord}
    (h : ∀ q row, (run q).written? = some row → row ∈ log) (hlog : ∀ row ∈ log, row ∈ log')
    (hc : ∀ row, c.written? = some row → row ∈ log') :
    ∀ q row, (Function.update run p c q).written? = some row → row ∈ log' := by
  intro q row hq
  by_cases hqp : q = p
  · subst hqp
    rw [Function.update_self] at hq
    exact hc row hq
  · rw [Function.update_of_ne hqp] at hq
    exact hlog row (h q row hq)

theorem intact_runStep {s t : State P Unit} {p : P} {act : RunAct} (h : Intact args s)
    (hsafe : SafeWrites args s (.run p act)) (ht : runStep lineBytes s p act = some t) :
    Intact args t := by
  cases runStep_cases ht with
  | found held sha256 | missing held sha256 | stored held sha256 suffix | storeFailed held sha256
  | chosen held row | locked row i | crashed =>
    exact ⟨h.safe, logged_update h.logged (fun _ => id) fun row hrow => by cases hrow⟩
  | opened row n =>
    exact ⟨safe_openAppend h.safe n,
      logged_update h.logged (fun _ => id) fun row hrow => by cases hrow⟩
  | wrote row i hpc =>
    have hwrite : WriteSafe (args ()).dryRun s.disk (s.pass ()) row i := by
      simpa [SafeWrites, hpc] using hsafe
    refine ⟨safe_append h.safe hwrite, logged_update h.logged
      (fun row' hrow' => mem_append_left _ hrow') fun row' hrow' => ?_⟩
    obtain rfl := some.inj hrow'
    exact mem_append_right _ (mem_singleton_self _)
  | unlocked row i hpc =>
    refine ⟨h.safe, logged_update h.logged (fun _ => id) fun row' hrow' => ?_⟩
    exact h.logged p row' (by rw [hpc]; exact hrow')

theorem intact_step {s t : State P Unit} {e : Event P Unit} (h : Intact args s)
    (hsafe : SafeWrites args s e) (ht : (machine lineBytes args).step s e = some t) :
    Intact args t := by
  cases e with
  | run p act => exact intact_runStep h hsafe ht
  | pass q =>
    obtain ⟨hrun, hlog⟩ := passStep_frame ht
    refine ⟨safe_passStep h.safe ht, ?_⟩
    rw [hrun, hlog]
    exact h.logged
  | stop q =>
    by_cases hpc : (s.pass q).underWay
    · obtain rfl := by simpa [machine, hpc] using ht
      exact ⟨safeState_goto (safe_past h.safe (.inr (.inr rfl))), h.logged⟩
    · simp [machine, hpc] at ht

omit [DecidableEq P] in
theorem intact_initial {s : State P Unit} (h : Initial s) : Intact args s where
  safe :=
    { named := h.wf.toNamed
      sorted := fun _ => h.wf.sealed_sorted
      listed := by rw [h.pass]; trivial
      present := fun k r hr => by rw [h.log] at hr; cases hr
      kept := fun k r hr => by rw [h.log] at hr; cases hr }
  logged p row hrow := by
    rw [h.run] at hrow
    cases hrow

/-- **No row is lost under one pass.**  In a run whose writes are all safe from the
pass, `iter_rows` yields, for every `close` that returned, the row written last for
its `(run_id, kind)`, at every moment. -/
theorem last_row_read {s : State P Unit}
    (hr : (machine lineBytes args).Reaches (SafeWrites args) s) (p : P) (row : RunLedgerRecord)
    (hrow : s.run p = .closed row) :
    ∃ last, lastFor RunLedgerRecord.key row.key s.log = some last ∧ last ∈ s.disk.iterRows := by
  have h : Intact args s :=
    hr.invariant (fun _ => intact_initial) fun _ _ _ => intact_step
  have hlog : row ∈ s.log := h.logged p row (by rw [hrow]; rfl)
  obtain ⟨last, hlast⟩ : ∃ last, lastFor RunLedgerRecord.key row.key s.log = some last :=
    exists_lastFor hlog
  exact ⟨last, hlast, h.safe.present _ last hlast⟩

end

/-- `compact_ledger(force=True, gc_blobs=False)`. -/
def forced : Unit → CompactArgs := fun _ => { force := true, gcBlobs := false }

/-- One run closes before the pass, the other one after its last move. -/
theorem last_row_read_two_runs :
    ∃ s : State (Fin 2) Unit, (machine (fun _ => 500) forced).Reaches (SafeWrites forced) s ∧
      ∃ last, lastFor RunLedgerRecord.key ("b", "train") s.log = some last ∧
        last ∈ s.disk.iterRows := by
  have hr : ∃ s, (machine (fun _ => 500) forced).run (start (Fin 2) Unit)
      (closing 0 { runId := "a", kind := "train" } ++ List.replicate 9 (.pass ()) ++
        closing 1 { runId := "b", kind := "train" } ++ [.pass ()]) = some s ∧
      s.run 1 = .closed { runId := "b", kind := "train" } := ⟨_, rfl, rfl⟩
  obtain ⟨s, hrun, hclosed⟩ := hr
  have hreach := Machine.reaches_of_allowed (G := SafeWrites forced)
    (start_initial (Fin 2) Unit) (by decide) hrun
  exact ⟨s, hreach, last_row_read hreach 1 _ hclosed⟩

/-- The run has opened the segment when the pass lists and reads it, empty; it writes
its row before the segment is moved. -/
theorem last_row_lost :
    ∃ s : State (Fin 2) Unit, (machine (fun _ => 500) forced).Reachable s ∧
      s.pass () = .done ∧ s.run 0 = .closed { runId := "a", kind := "train" } ∧
      lastFor RunLedgerRecord.key ("a", "train") s.log = some { runId := "a", kind := "train" } ∧
      { runId := "a", kind := "train" } ∉ s.disk.iterRows := by
  have hr : ∃ s, (machine (fun _ => 500) forced).run (start (Fin 2) Unit)
      ([.run 0 (.close { runId := "a", kind := "train" }), .run 0 .advance, .run 0 .advance] ++
        List.replicate 4 (.pass ()) ++ [.run 0 .advance, .run 0 .advance] ++
        List.replicate 6 (.pass ())) = some s ∧
      s.pass () = .done ∧ s.run 0 = .closed { runId := "a", kind := "train" } ∧
      lastFor RunLedgerRecord.key ("a", "train") s.log = some { runId := "a", kind := "train" } ∧
      { runId := "a", kind := "train" } ∉ s.disk.iterRows :=
    ⟨_, rfl, rfl, rfl, by decide, by decide⟩
  obtain ⟨s, hrun, hs⟩ := hr
  exact ⟨s, Machine.reachable_of_run (start_initial (Fin 2) Unit) hrun, hs⟩

end Xtrax.Ledger
