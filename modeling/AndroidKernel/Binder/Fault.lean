/-!
# Where the driver goes wrong

The `BUG`s of `drivers/staging/android/binder.c`, and the points where it would leave
defined behaviour. Every function of the model that can reach one returns it as an
error, so that "this cannot happen" is a statement about results.
-/

namespace AndroidKernel.Binder

/-- The places where the driver stops the kernel or leaves defined behaviour. -/
inductive Fault where
  /-- `BUG_ON` of `binder_insert_free_buffer`: a buffer that is not free. -/
  | insertFreeBuffer
  /-- `BUG_ON` and `BUG` of `binder_insert_allocated_buffer`. -/
  | insertAllocatedBuffer
  /-- `BUG_ON(buffer->free)` of `binder_buffer_lookup`. -/
  | bufferLookup
  /-- `BUG_ON(*page)` of `binder_update_page_range`. -/
  | pagePresent
  /-- `__free_page` of a page that is not there. -/
  | pageAbsent
  /-- `BUG_ON(!buffer->free)` of `binder_alloc_buf`. -/
  | allocBuf
  /-- `BUG_ON` of `binder_delete_free_buffer`. -/
  | deleteFreeBuffer
  /-- `BUG_ON` of `binder_free_buf`. -/
  | freeBuf
  /-- `BUG` of `binder_get_ref_for_node`: a descriptor that is in use. -/
  | refDesc
  /-- `BUG_ON(target_thread->transaction_stack != t)` of `binder_pop_transaction`. -/
  | popStack
  /-- `BUG_ON(target_thread->transaction_stack->from != target_thread)` of
  `binder_pop_transaction`. -/
  | popFrom
  /-- `BUG_ON(t->flags & TF_ONE_WAY)` of `binder_send_failed_reply`. -/
  | failedReplyOneWay
  /-- `BUG` of `binder_free_thread`. -/
  | freeThread
  /-- `BUG_ON` on `t->buffer->async_transaction` of `binder_transaction`. -/
  | bufferAsync
  /-- `BUG_ON(target_node == NULL)` of `binder_transaction`. -/
  | noTargetNode
  /-- `BUG_ON(thread->return_error != BR_OK)` of `binder_transaction`. -/
  | returnError
  /-- `BUG_ON(!buffer->target_node->has_async_transaction)` of `BC_FREE_BUFFER`. -/
  | asyncTransaction
  /-- `BUG_ON(death->work.type != BINDER_WORK_DEAD_BINDER)` of
  `BC_CLEAR_DEATH_NOTIFICATION`. -/
  | deathType
  /-- `BUG` of `binder_deferred_release`: a death record that is queued already. -/
  | deathQueued
  /-- `BUG_ON(t->buffer == NULL)` of `binder_thread_read`. -/
  | noBuffer
  /-- A reference count leaves the range of `int`. -/
  | overflow
  /-- A null pointer is followed. -/
  | nullPointer
  /-- A pointer to a freed node is followed. -/
  | danglingNode
  /-- A pointer to a freed reference is followed. -/
  | danglingRef
  /-- A pointer to a freed death record is followed. -/
  | danglingDeath
  /-- A pointer to a freed thread is followed. -/
  | danglingThread
  /-- A pointer to a freed transaction is followed. -/
  | danglingTransaction
  /-- A pointer to a freed process is followed. -/
  | danglingProc
  /-- A pointer to a freed buffer is followed. -/
  | danglingBuffer
  /-- A loop over linked transactions does not end. -/
  | endless
  deriving DecidableEq, Repr

end AndroidKernel.Binder
