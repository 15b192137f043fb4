import Cronbat.Time
import Cronbat.Store
import Cronbat.Readback
import Cronbat.Cron
import Cronbat.Heap
import Cronbat.Scheduler
import Cronbat.Activation
import Cronbat.Accepted
import Cronbat.Loop
import Cronbat.Monotonic
import Cronbat.MonotonicLoop
import Cronbat.Job
import Cronbat.Registry
import Cronbat.Agreement
import Cronbat.Requests
import Cronbat.Executor
import Cronbat.Daemon
import Cronbat.RunRecords
import Cronbat.Output
import Cronbat.Retention
import Cronbat.Broker
import Cronbat.BrokerSafety
import Cronbat.Api
import Cronbat.Transfer
import Cronbat.Env
import Cronbat.Crontab
import Cronbat.CronImport
import Cronbat.Reimport
import Cronbat.RunLogs
