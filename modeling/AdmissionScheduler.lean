import AdmissionScheduler.Machine
import AdmissionScheduler.Program
import AdmissionScheduler.Crew
import AdmissionScheduler.PyText
import AdmissionScheduler.Glob
import AdmissionScheduler.PosixPath
import AdmissionScheduler.Holdings
import AdmissionScheduler.Tally
import AdmissionScheduler.Lifecycle
import AdmissionScheduler.SortedSet
import AdmissionScheduler.Groups
import AdmissionScheduler.PyValue
import AdmissionScheduler.Rounding
import AdmissionScheduler.Config
import AdmissionScheduler.Trace
import AdmissionScheduler.Redis
import AdmissionScheduler.Dispatcher
import AdmissionScheduler.Admission
import AdmissionScheduler.Cancel
import AdmissionScheduler.LeaseWatcher
import AdmissionScheduler.Integrity
import AdmissionScheduler.System
import AdmissionScheduler.LifecycleSound
import AdmissionScheduler.Turns
import AdmissionScheduler.SlotPool
import AdmissionScheduler.HashWrites
import AdmissionScheduler.QueueSound
import AdmissionScheduler.ScoreSound
import AdmissionScheduler.EnqueueSound
import AdmissionScheduler.RedisKeys
import AdmissionScheduler.Isolation
import AdmissionScheduler.PayloadSound
import AdmissionScheduler.PrioritySound
import AdmissionScheduler.StatusSound
import AdmissionScheduler.CancelSound
import AdmissionScheduler.IdempotencySound
import AdmissionScheduler.SlotTurns
import AdmissionScheduler.SlotSound
import AdmissionScheduler.ScanSound
import AdmissionScheduler.RecoverySound
import AdmissionScheduler.DispatchSound
import AdmissionScheduler.ConsumerSound
import AdmissionScheduler.ReleaseSound
import AdmissionScheduler.StorySound
import AdmissionScheduler.JsonlLogger
import AdmissionScheduler.LogSound
import AdmissionScheduler.SyncWait
import AdmissionScheduler.SyncReply
import AdmissionScheduler.SyncSound
import AdmissionScheduler.ForwardTime
import AdmissionScheduler.LeaseSound
import AdmissionScheduler.StopSound
import AdmissionScheduler.ExpirySound
import AdmissionScheduler.ScriptCache
import AdmissionScheduler.ScriptSound
import AdmissionScheduler.Recording
import AdmissionScheduler.Turnover
import AdmissionScheduler.MetricSound
import AdmissionScheduler.BaseModel
import AdmissionScheduler.Schemas
import AdmissionScheduler.SchemaSound
import AdmissionScheduler.Uuid7
import AdmissionScheduler.QueueReport
import AdmissionScheduler.LlmClient
import AdmissionScheduler.LlmSound
import AdmissionScheduler.JsonDecoder
import AdmissionScheduler.JsonText
import AdmissionScheduler.ExtractJson
import AdmissionScheduler.JsonEncoder
import AdmissionScheduler.LogFile
import AdmissionScheduler.StoredJson
import AdmissionScheduler.Commands
import AdmissionScheduler.Places
import AdmissionScheduler.StartUp
import AdmissionScheduler.JobReport
import AdmissionScheduler.Budget
import AdmissionScheduler.BudgetSound
import AdmissionScheduler.RefusalSound
import AdmissionScheduler.CharterRules
import AdmissionScheduler.Operations
import AdmissionScheduler.CeoAgent
import AdmissionScheduler.TriageAgent
import AdmissionScheduler.Worktree
import AdmissionScheduler.BackendAgent
import AdmissionScheduler.Team
import AdmissionScheduler.ReviewSound
import AdmissionScheduler.TeamSound
import AdmissionScheduler.MergeSound
import AdmissionScheduler.RedSound
import AdmissionScheduler.LabelSound
import AdmissionScheduler.CharterSound
import AdmissionScheduler.BackendSound
import AdmissionScheduler.WriteSound
import AdmissionScheduler.GiveBackSound
import AdmissionScheduler.GreenSound
import AdmissionScheduler.Duties
import AdmissionScheduler.PublishSound
import AdmissionScheduler.SettleSound
import AdmissionScheduler.Spending
import AdmissionScheduler.WorkBound
import AdmissionScheduler.TokenCache
import AdmissionScheduler.Daemon
import AdmissionScheduler.Drain
import AdmissionScheduler.AnswerSound
import AdmissionScheduler.Dotenv
import AdmissionScheduler.Overtaking
import AdmissionScheduler.Liveness
