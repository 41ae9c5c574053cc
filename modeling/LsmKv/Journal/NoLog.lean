import LsmKv.Journal

/-!
# A store without its log

* `noLog`          all of a store but `tx_log`;
* `serve_noLog`    no request looks at the log, and what it does besides is the same without it.
-/

namespace LsmKv

/-- all of a store but `tx_log` -/
def noLog (s : Store) : Store := { s with txLog := none }

theorem c0Dump_noLog (T : C0Node) (s : Store) :
    c0Dump T (noLog s) = (c0Dump T s).map noLog := by
  by_cases hT : T = .null
  · subst hT
    simp
  · rw [c0Dump_eq hT, c0Dump_eq hT, Option.map_map]
    refine congrArg (Option.map · _) (funext fun r => ?_)
    show Store.mk _ _ _ _ = Store.mk _ _ _ _
    simp [noLog]

theorem insertC0_noLog (s : Store) (key value : CStr) :
    insertC0 (noLog s) key value = (insertC0 s key value).map noLog := by
  unfold insertC0
  dsimp only [noLog]
  split_ifs
  · exact c0Dump_noLog _ { s with T := .null }
  · rfl

theorem putC0_noLog (s : Store) (key value : CStr) :
    putC0 (noLog s) key value = (putC0 s key value).map noLog := by
  cases hg : s.T.get key with
  | none => rw [putC0_insert hg, putC0_insert (s := noLog s) hg, insertC0_noLog]
  | some e =>
    rw [putC0_root hg, putC0_root (s := noLog s) hg]
    rfl

/-- a reply without the log of its state -/
def noLogReply (r : Reply) : Reply := (r.1, r.2.1, noLog r.2.2)

/-- the last step of most requests -/
theorem cachePut_noLog (s : Store) (cache : Cache) (key value : CStr) (code : Int)
    (response : CStr) :
    ((cachePut cache key value).bind fun c => some (code, response, { noLog s with cache := c })) =
      ((cachePut cache key value).bind fun c =>
        some (code, response, { s with cache := c })).map noLogReply := by
  cases cachePut cache key value with
  | none => rfl
  | some c => rfl

theorem put_noLog (s : Store) (key value : CStr) :
    server1PutRequest (noLog s) key value = (server1PutRequest s key value).map noLogReply := by
  show Option.bind _ _ = Option.map _ (Option.bind _ _)
  rw [putC0_noLog]
  cases putC0 s key value with
  | none => rfl
  | some s1 => exact cachePut_noLog s1 s1.cache key value exitSuccess success

theorem insert_noLog (s : Store) (key value : CStr) : server1InsertRequest (noLog s) key value
    = (server1InsertRequest s key value).map noLogReply := by
  unfold server1InsertRequest
  dsimp only [noLog]
  cases (cacheGet s.cache key).1 with
  | some v => rfl
  | none =>
    dsimp only
    cases s.T.get key with
    | some e => rfl
    | none =>
      have h := insertC0_noLog { s with cache := (cacheGet s.cache key).2 } key value
      dsimp only [noLog] at h ⊢
      rw [h]
      cases insertC0 { s with cache := (cacheGet s.cache key).2 } key value with
      | none => rfl
      | some s1 => exact cachePut_noLog s1 s1.cache key value exitSuccess success

theorem delete_noLog (s : Store) (key : CStr) :
    server1DeleteRequest (noLog s) key = (server1DeleteRequest s key).map noLogReply := by
  show some _ = some _
  unfold noLogReply deleteC0
  dsimp only [noLog]
  cases s.T.get key with
  | none => rfl
  | some e => rfl

theorem get_noLog (s : Store) (key : CStr) :
    server1GetRequest (noLog s) key = (server1GetRequest s key).map noLogReply := by
  unfold server1GetRequest
  dsimp only [noLog]
  cases (cacheGet s.cache key).1 with
  | some v => rfl
  | none =>
    dsimp only
    cases s.T.get key with
    | some e => exact cachePut_noLog s _ key e.value.chars exitSuccess e.value.chars
    | none =>
      cases c1Get s.c1 key with
      | none => rfl
      | some value =>
        cases value with
        | none => rfl
        | some v => exact cachePut_noLog s _ key v exitSuccess v

theorem timer_noLog (s : Store) : myTimerHandler (noLog s) = (myTimerHandler s).map noLog :=
  c0Dump_noLog s.T { s with T := .null }

/-- **No request looks at the log.** -/
theorem serve_noLog (s : Store) (r : Req) : serve (noLog s) r = (serve s r).map noLogReply := by
  cases r with
  | put key value => exact put_noLog s key value
  | insert key value => exact insert_noLog s key value
  | delete key => exact delete_noLog s key
  | get key => exact get_noLog s key
  | timer =>
    show (myTimerHandler (noLog s)).map _ = ((myTimerHandler s).map _).map _
    rw [timer_noLog, Option.map_map, Option.map_map]
    rfl

theorem step_noLog (s : Store) (r : Req) : (noLog s).step r = (s.step r).map noLog := by
  unfold Store.step
  rw [serve_noLog, Option.map_map, Option.map_map]
  rfl

end LsmKv
